import MerkleService.Block.SubtreeWorker

/-!
# Who publishes BLOCK_PROCESSED

Every delivery of a work item decrements the counter of its block at most once, so in every run,
whatever fails and however often items are delivered, the counter is the subtree count minus the
number of decrements, exactly one decrement sees it at zero, and only that delivery publishes
BLOCK_PROCESSED.

* `Inv`, `inv_step` : these facts, as an invariant of all steps.
* `Inv.complete` : BLOCK_PROCESSED in the topic means that the count of its block is complete.
* `Inv.sawZero_unique` : at most one delivery sees zero.
* `counted_of_complete` : if no item is counted twice, a complete count covers every item.
* `countP_blockProcessed_le` : BLOCK_PROCESSED is published at most once per URL.
-/

namespace MerkleService

namespace SubtreeWorker

open Kafka

/-- `m` is the BLOCK_PROCESSED message of block `b` for `url`. -/
def isBlockProcessed (b url : String) (m : CallbackTopicMessage) : Bool :=
  m.type = .blockProcessed ∧ m.blockHash = b ∧ m.callbackURL = url

/-- `m` is a STUMP message of block `b` for `url`. -/
def isStump (b url : String) (m : CallbackTopicMessage) : Bool :=
  m.type = .stump ∧ m.blockHash = b ∧ m.callbackURL = url

section

variable (work : List SubtreeWorkMessage) (producer : Producer)

/-! ### Counting deliveries -/

/-- A quantity summed over all deliveries. -/
def tally (g : Delivery → ℕ) (ds : List Delivery) : ℕ := (ds.map g).sum

/-- The delivery has decremented the counter of block `b`. -/
def countedIn (b : String) (dl : Delivery) : ℕ :=
  if inBlock work b dl = true ∧ dl.phase.counted = true then 1 else 0

/-- The delivery has seen the counter of block `b` at zero. -/
def sawZeroIn (b : String) (dl : Delivery) : ℕ :=
  if inBlock work b dl = true ∧ dl.phase.sawZero = true then 1 else 0

/-- How often the delivery has published BLOCK_PROCESSED of block `b` to `url`. -/
def sentTo (b url : String) (dl : Delivery) : ℕ :=
  if inBlock work b dl = true then dl.phase.sent.count url else 0

/-- **What holds in every run**, whatever fails, crashes or is delivered again. -/
structure Inv (s : State) : Prop where
  items : ∀ dl ∈ s.deliveries, dl.item < work.length
  /-- The counter is the subtree count minus the number of decrements. -/
  counter : ∀ b, subtreeCount work b ≠ 0 →
    s.counter b = some ((subtreeCount work b : ℤ) - tally (countedIn work b) s.deliveries)
  /-- Exactly one decrement sees zero, the one that completes the count. -/
  zero : ∀ b, subtreeCount work b ≠ 0 → tally (sawZeroIn work b) s.deliveries =
    if subtreeCount work b ≤ tally (countedIn work b) s.deliveries then 1 else 0
  /-- BLOCK_PROCESSED is in the topic as often as it was published, in the partition of its URL. -/
  sent : ∀ b url p, (s.topic p).countP (isBlockProcessed b url) =
    if p = producer.partitionOf url then tally (sentTo work b url) s.deliveries else 0

end

variable {work : List SubtreeWorkMessage} {producer : Producer}

theorem tally_append (g : Delivery → ℕ) (ds : List Delivery) (dl : Delivery) :
    tally g (ds ++ [dl]) = tally g ds + g dl := by
  simp [tally]

theorem tally_set (g : Delivery → ℕ) {ds : List Delivery} {d : ℕ} {dl : Delivery}
    (h : ds[d]? = some dl) (dl' : Delivery) :
    tally g (ds.set d dl') + g dl = tally g ds + g dl' :=
  List.sum_map_set g h dl'

theorem tally_set_same {g : Delivery → ℕ} {ds : List Delivery} {d : ℕ} {dl dl' : Delivery}
    (h : ds[d]? = some dl) (hg : g dl' = g dl) : tally g (ds.set d dl') = tally g ds := by
  have := tally_set g h dl'
  omega

theorem subtreeCount_ne_zero {i : ℕ} {w : SubtreeWorkMessage} (h : work[i]? = some w) :
    subtreeCount work w.blockHash ≠ 0 := by
  have : 0 < work.countP (·.blockHash = w.blockHash) :=
    List.countP_pos_iff.2 ⟨w, List.mem_of_getElem? h, by simp⟩
  unfold subtreeCount
  omega

theorem inBlock_iff {b : String} {dl : Delivery} {w : SubtreeWorkMessage}
    (h : work[dl.item]? = some w) : inBlock work b dl = true ↔ w.blockHash = b := by
  simp [inBlock, h]

@[simp] theorem inBlock_phase (b : String) (dl : Delivery) (ph : Phase) :
    inBlock work b { dl with phase := ph } = inBlock work b dl := rfl

/-! ### The invariant of all runs -/

theorem inv_init : Inv work producer (init work) where
  items := by simp [init]
  counter := fun b hb => by simp [init, hb, tally]
  zero := fun b hb => by
    have : ¬ subtreeCount work b ≤ 0 := by omega
    simp [init, tally, hb]
  sent := fun b url p => by simp [init, tally]

/-- The invariant is kept by a step that leaves counters and topic alone and all counts as they
were. -/
theorem Inv.of_same {s s' : State} (h : Inv work producer s)
    (hi : ∀ dl ∈ s'.deliveries, dl.item < work.length) (hc : s'.counter = s.counter)
    (ht : s'.topic = s.topic)
    (h1 : ∀ b, tally (countedIn work b) s'.deliveries = tally (countedIn work b) s.deliveries)
    (h2 : ∀ b, tally (sawZeroIn work b) s'.deliveries = tally (sawZeroIn work b) s.deliveries)
    (h3 : ∀ b url, tally (sentTo work b url) s'.deliveries =
      tally (sentTo work b url) s.deliveries) :
    Inv work producer s' where
  items := hi
  counter := fun b hb => by rw [hc, h1, h.counter b hb]
  zero := fun b hb => by rw [h1, h2, h.zero b hb]
  sent := fun b url p => by rw [ht, h3, h.sent b url p]

theorem items_set {s : State} (h : ∀ dl ∈ s.deliveries, dl.item < work.length) {d : ℕ}
    {dl : Delivery} (hdl : s.deliveries[d]? = some dl) (x : Delivery) (hx : x.item = dl.item) :
    ∀ y ∈ s.deliveries.set d x, y.item < work.length := by
  intro y hy
  rcases List.mem_or_eq_of_mem_set hy with hy | rfl
  · exact h y hy
  · rw [hx]; exact h dl (List.mem_of_getElem? hdl)

/-- A message that is not the BLOCK_PROCESSED of `b` for `url` does not change its count. -/
theorem countP_publish_of_not {s : State} {b url u : String} {m : CallbackTopicMessage}
    (hm : isBlockProcessed b url m = false) (p : ℕ) :
    ((s.publish producer u m).topic p).countP (isBlockProcessed b url) =
      (s.topic p).countP (isBlockProcessed b url) := by
  by_cases hp : p = producer.partitionOf u
  · subst hp
    simp [State.publish, Producer.publishWithHashKey, hm]
  · simp [State.publish, Producer.publishWithHashKey, Function.update_of_ne hp]

theorem countedIn_congr {b : String} {dl : Delivery} {ph : Phase}
    (h : ph.counted = dl.phase.counted) :
    countedIn work b { dl with phase := ph } = countedIn work b dl := by
  simp only [countedIn, inBlock_phase, h]

theorem sawZeroIn_congr {b : String} {dl : Delivery} {ph : Phase}
    (h : ph.sawZero = dl.phase.sawZero) :
    sawZeroIn work b { dl with phase := ph } = sawZeroIn work b dl := by
  simp only [sawZeroIn, inBlock_phase, h]

theorem sentTo_congr {b url : String} {dl : Delivery} {ph : Phase}
    (h : ph.sent = dl.phase.sent) :
    sentTo work b url { dl with phase := ph } = sentTo work b url dl := by
  simp only [sentTo, inBlock_phase, h]

/-- The decrement of a delivery of block `w.blockHash` that finds `n`: its own block is counted
once more, and zero is seen if `n` was one. -/
theorem inv_decrement {s : State} {d : ℕ} {dl : Delivery} {w : SubtreeWorkMessage} {n : ℤ}
    {ph : Phase} (h : Inv work producer s) (hdl : s.deliveries[d]? = some dl)
    (hw : work[dl.item]? = some w) (hph : dl.phase = .decrementing)
    (hn : s.counter w.blockHash = some n)
    (hph' : ph = if n - 1 = 0 then .emitting else .done none) :
    Inv work producer { s.setCounter w.blockHash (some (n - 1)) with
      deliveries := s.deliveries.set d { dl with phase := ph } } := by
  have hitems := items_set h.items hdl { dl with phase := ph } rfl
  have hold : dl.phase.counted = false := by rw [hph]; rfl
  have hcounted : ph.counted = true := by rw [hph']; split_ifs <;> rfl
  have hsent : ph.sent = dl.phase.sent := by rw [hph, hph']; split_ifs <;> rfl
  have hzero : ph.sawZero = decide (n - 1 = 0) := by
    rw [hph']; split_ifs with hn1 <;> simp [Phase.sawZero, hn1]
  -- what the delivery adds to the two counts of a block
  have hc : ∀ b, tally (countedIn work b) (s.deliveries.set d { dl with phase := ph }) =
      tally (countedIn work b) s.deliveries + if w.blockHash = b then 1 else 0 := by
    intro b
    have := tally_set (countedIn work b) hdl { dl with phase := ph }
    simpa [countedIn, inBlock_iff hw, hcounted, hold] using this
  have hz : ∀ b, tally (sawZeroIn work b) (s.deliveries.set d { dl with phase := ph }) =
      tally (sawZeroIn work b) s.deliveries + if w.blockHash = b ∧ n - 1 = 0 then 1 else 0 := by
    intro b
    have := tally_set (sawZeroIn work b) hdl { dl with phase := ph }
    simpa [sawZeroIn, inBlock_iff hw, hzero, Phase.not_sawZero_of_not_counted hold] using this
  refine ⟨hitems, fun b hb => ?_, fun b hb => ?_, fun b u p => ?_⟩
  · rw [hc b]
    by_cases hwb : w.blockHash = b
    · subst hwb
      have hcount := h.counter _ hb
      rw [hn, Option.some.injEq] at hcount
      simp only [State.setCounter, Function.update_self, Option.some.injEq, ↓reduceIte]
      push_cast
      omega
    · simp only [State.setCounter, Function.update_of_ne (Ne.symm hwb), hwb, ↓reduceIte, add_zero]
      exact h.counter b hb
  · rw [hc b, hz b, h.zero b hb]
    by_cases hwb : w.blockHash = b
    · subst hwb
      have hcount := h.counter _ hb
      rw [hn, Option.some.injEq] at hcount
      simp only [true_and, ↓reduceIte]
      split_ifs <;> omega
    · simp only [hwb, false_and, ↓reduceIte, add_zero]
  · rw [tally_set_same hdl (sentTo_congr hsent)]
    exact h.sent b u p

/-- A BLOCK_PROCESSED message is appended to the partition of its URL, and nowhere else. -/
theorem inv_emit {s : State} {d : ℕ} {dl : Delivery} {w : SubtreeWorkMessage} {e : Emission}
    {url : String} {rest : List String} (h : Inv work producer s)
    (hdl : s.deliveries[d]? = some dl) (hw : work[dl.item]? = some w)
    (hph : dl.phase = .emittingTo e (url :: rest)) :
    Inv work producer { s.publish producer url (blockProcessedMessage w.blockHash url) with
      deliveries := s.deliveries.set d
        { dl with phase := .emitRest ⟨e.urls, e.sent ++ [url]⟩ rest } } := by
  have hitems := items_set h.items hdl
    { dl with phase := .emitRest ⟨e.urls, e.sent ++ [url]⟩ rest } rfl
  have hcounted : dl.phase.counted = true := by rw [hph]; rfl
  have hzero : dl.phase.sawZero = true := by rw [hph]; rfl
  have hsent : dl.phase.sent = e.sent := by rw [hph]; rfl
  refine ⟨hitems, fun b hb => ?_, fun b hb => ?_, fun b u p => ?_⟩
  · rw [tally_set_same hdl (countedIn_congr (by simp [hcounted]))]
    exact h.counter b hb
  · rw [tally_set_same hdl (countedIn_congr (by simp [hcounted])),
      tally_set_same hdl (sawZeroIn_congr (by simp [hzero]))]
    exact h.zero b hb
  have hold := h.sent b u p
  by_cases hm : w.blockHash = b ∧ url = u
  · -- this very message
    obtain ⟨rfl, rfl⟩ := hm
    have ht := tally_set (sentTo work w.blockHash url) hdl
      { dl with phase := .emitRest ⟨e.urls, e.sent ++ [url]⟩ rest }
    simp only [sentTo, inBlock_phase, (inBlock_iff hw).2 rfl, hsent, Phase.sent_emitRest,
      ↓reduceIte, List.count_append, List.count_singleton_self] at ht
    have hbp : isBlockProcessed w.blockHash url (blockProcessedMessage w.blockHash url) = true := by
      simp [isBlockProcessed, blockProcessedMessage]
    by_cases hp : p = producer.partitionOf url
    · subst hp
      simp only [↓reduceIte] at hold ⊢
      simp only [State.publish, Producer.publishWithHashKey, Function.update_self,
        List.countP_append, List.countP_singleton, hold, hbp, ↓reduceIte]
      omega
    · simp only [hp, ↓reduceIte] at hold ⊢
      simpa only [State.publish, Producer.publishWithHashKey, Function.update_of_ne hp] using hold
  · have hsame : sentTo work b u { dl with phase := .emitRest ⟨e.urls, e.sent ++ [url]⟩ rest } =
        sentTo work b u dl := by
      simp only [sentTo, inBlock_phase, inBlock_iff hw, hsent, Phase.sent_emitRest]
      split_ifs with hb
      · have hu : url ≠ u := fun hu => hm ⟨hb, hu⟩
        simp [List.count_append, hu]
      · rfl
    rw [tally_set_same hdl hsame, ← hold]
    exact countP_publish_of_not (by simpa [isBlockProcessed, blockProcessedMessage] using hm) p

theorem inv_step {s s' : State} {l : Label} (h : Inv work producer s)
    (hst : step work producer s l = some s') : Inv work producer s' := by
  obtain ⟨item, -, hlt, rfl⟩ | ⟨d, dl, -, hdl, rfl⟩ | ⟨d, dl, w, s₁, ph, -, hdl, hw, hds, rfl⟩ :=
    step_cases hst
  · -- a new delivery counts for nothing yet
    refine h.of_same ?_ rfl rfl (fun b => ?_) (fun b => ?_) (fun b url => ?_)
    · intro x hx
      rcases List.mem_append.1 hx with hx | hx
      · exact h.items x hx
      · rw [List.mem_singleton.1 hx]; exact hlt
    · rw [tally_append]; simp [countedIn, Phase.counted]
    · rw [tally_append]; simp [sawZeroIn, Phase.sawZero]
    · rw [tally_append]; simp [sentTo, Phase.sent]
  · -- a crash changes no phase
    exact h.of_same (items_set h.items hdl _ rfl) rfl rfl (fun b => tally_set_same hdl rfl)
      (fun b => tally_set_same hdl rfl) (fun b url => tally_set_same hdl rfl)
  have hitems := items_set h.items hdl { dl with phase := ph } rfl
  obtain ⟨hph, hph', htop, hctr⟩ | ⟨d', ref, url, urls, -, hph, rfl, rfl⟩ |
    ⟨d', n, -, hph, hn, rfl, rfl⟩ | ⟨d', urls, -, -, hph, rfl, rfl⟩ |
    ⟨d', e, url, rest, -, hph, rfl, rfl⟩ | ⟨d', e, url, rest, -, hph, rfl, rfl⟩ :=
    deliveryStep_cases hds
  · -- before the decrement
    have hz : ph.sawZero = dl.phase.sawZero := by
      rw [Phase.not_sawZero_of_not_counted hph, Phase.not_sawZero_of_not_counted hph']
    have hs : ph.sent = dl.phase.sent := by
      rw [Phase.sent_of_not_counted hph, Phase.sent_of_not_counted hph']
    exact h.of_same hitems hctr htop
      (fun b => tally_set_same hdl (countedIn_congr (hph'.trans hph.symm)))
      (fun b => tally_set_same hdl (sawZeroIn_congr hz))
      (fun b u => tally_set_same hdl (sentTo_congr hs))
  · -- a STUMP message
    have hc : dl.phase.counted = false := by rw [hph]; rfl
    refine ⟨hitems, fun b hb => ?_, fun b hb => ?_, fun b u p => ?_⟩
    · rw [tally_set_same hdl (countedIn_congr (by simp [hc]))]
      exact h.counter b hb
    · rw [tally_set_same hdl (countedIn_congr (by simp [hc])),
        tally_set_same hdl (sawZeroIn_congr (by simp [Phase.not_sawZero_of_not_counted hc]))]
      exact h.zero b hb
    · rw [tally_set_same hdl (sentTo_congr (by simp [Phase.sent_of_not_counted hc])),
        ← h.sent b u p]
      exact countP_publish_of_not (by simp [isBlockProcessed, stumpMessage]) p
  · exact inv_decrement h hdl hw hph hn rfl
  · -- reading the URLs
    have hall : (afterGetAll urls).counted = true ∧ (afterGetAll urls).sawZero = true ∧
        (afterGetAll urls).sent = [] := by
      cases urls with
      | none => exact ⟨rfl, rfl, rfl⟩
      | some urls =>
        exact ⟨Phase.counted_emitRest _ _, Phase.sawZero_emitRest _ _, Phase.sent_emitRest _ _⟩
    obtain ⟨hcounted, hzero, hsent⟩ := hall
    exact h.of_same hitems rfl rfl
      (fun b => tally_set_same hdl (countedIn_congr (by rw [hcounted, hph]; rfl)))
      (fun b => tally_set_same hdl (sawZeroIn_congr (by rw [hzero, hph]; rfl)))
      (fun b u => tally_set_same hdl (sentTo_congr (by rw [hsent, hph]; rfl)))
  · exact inv_emit h hdl hw hph
  · -- a BLOCK_PROCESSED message that could not be published
    exact h.of_same hitems rfl rfl
      (fun b => tally_set_same hdl
        (countedIn_congr (by simp only [Phase.counted_emitRest, hph]; rfl)))
      (fun b => tally_set_same hdl
        (sawZeroIn_congr (by simp only [Phase.sawZero_emitRest, hph]; rfl)))
      (fun b u => tally_set_same hdl (sentTo_congr (by simp only [Phase.sent_emitRest, hph]; rfl)))

/-! ### Counting items instead of deliveries -/

theorem tally_pos {g : Delivery → ℕ} {ds : List Delivery} :
    0 < tally g ds ↔ ∃ dl ∈ ds, 0 < g dl := by
  simp [tally, List.sum_pos_iff_exists_pos_nat]

theorem tally_le_tally {f g : Delivery → ℕ} {ds : List Delivery} (h : ∀ dl ∈ ds, f dl ≤ g dl) :
    tally f ds ≤ tally g ds :=
  List.sum_le_sum h

/-- The delivery is of item `i` and has been counted. -/
def countedAt (i : ℕ) (dl : Delivery) : ℕ :=
  if dl.item = i ∧ dl.phase.counted = true then 1 else 0

/-- The work items of a block. -/
def blockItems (work : List SubtreeWorkMessage) (b : String) : Finset ℕ :=
  (Finset.range work.length).filter fun i => (work[i]?).any (·.blockHash = b)

theorem mem_blockItems {b : String} {i : ℕ} :
    i ∈ blockItems work b ↔ ∃ w, work[i]? = some w ∧ w.blockHash = b := by
  simp only [blockItems, Finset.mem_filter, Finset.mem_range, Option.any_eq_true,
    decide_eq_true_eq]
  refine ⟨fun h => h.2, fun ⟨w, hw, hb⟩ => ⟨?_, w, hw, hb⟩⟩
  exact (List.getElem?_eq_some_iff.1 hw).1

theorem inBlock_iff_mem {b : String} {dl : Delivery} :
    inBlock work b dl = true ↔ dl.item ∈ blockItems work b := by
  simp [inBlock, mem_blockItems, Option.any_eq_true]

theorem card_blockItems (b : String) : (blockItems work b).card = subtreeCount work b := by
  unfold subtreeCount
  rw [← List.countP_range_any, List.countP_eq_length_filter]
  simp [blockItems, Finset.card, Finset.range, Multiset.range]

theorem tally_countedIn (b : String) (ds : List Delivery) :
    tally (countedIn work b) ds = ∑ i ∈ blockItems work b, tally (countedAt i) ds := by
  induction ds with
  | nil => simp [tally]
  | cons dl ds ih =>
    have hone : countedIn work b dl = ∑ i ∈ blockItems work b, countedAt i dl := by
      by_cases hc : dl.phase.counted = true
      · simp [countedIn, countedAt, hc, inBlock_iff_mem]
      · simp [countedIn, countedAt, hc]
    simp only [tally, List.map_cons, List.sum_cons, Finset.sum_add_distrib] at ih ⊢
    rw [ih, hone]

/-- If no item is counted twice, a complete count means that every item is counted. -/
theorem counted_of_complete {b : String} {ds : List Delivery}
    (hone : ∀ i ∈ blockItems work b, tally (countedAt i) ds ≤ 1)
    (hall : subtreeCount work b ≤ tally (countedIn work b) ds) :
    ∀ i ∈ blockItems work b, 0 < tally (countedAt i) ds := by
  have hle : ∑ i ∈ blockItems work b, tally (countedAt i) ds ≤ ∑ i ∈ blockItems work b, 1 :=
    Finset.sum_le_sum hone
  have heq : ∑ i ∈ blockItems work b, tally (countedAt i) ds = ∑ i ∈ blockItems work b, 1 := by
    refine le_antisymm hle ?_
    rw [← tally_countedIn, Finset.sum_const, smul_eq_mul, mul_one, card_blockItems]
    exact hall
  intro i hi
  have := (Finset.sum_eq_sum_iff_of_le hone).1 heq i hi
  omega

/-- **BLOCK_PROCESSED of a block in the topic means that its count is complete.** -/
theorem Inv.complete {s : State} (h : Inv work producer s) {b url : String} {p : ℕ}
    {m : CallbackTopicMessage} (hm : m ∈ s.topic p) (hbp : isBlockProcessed b url m = true) :
    subtreeCount work b ≤ tally (countedIn work b) s.deliveries := by
  have hpos : 0 < (s.topic p).countP (isBlockProcessed b url) :=
    List.countP_pos_iff.2 ⟨m, hm, hbp⟩
  rw [h.sent b url p] at hpos
  split_ifs at hpos
  case neg => omega
  obtain ⟨dl, hdl, hd⟩ := tally_pos.1 hpos
  have hin : inBlock work b dl = true := by
    by_contra hin; simp [sentTo, hin] at hd
  have hzero : dl.phase.sawZero = true := by
    by_contra hz
    simp [sentTo, hin, Phase.sent_of_not_sawZero (Bool.eq_false_iff.2 hz)] at hd
  obtain ⟨w, hw, hwb⟩ := mem_blockItems.1 (inBlock_iff_mem.1 hin)
  have hz := h.zero b (hwb ▸ subtreeCount_ne_zero hw)
  have : 0 < tally (sawZeroIn work b) s.deliveries :=
    tally_pos.2 ⟨dl, hdl, by simp [sawZeroIn, hin, hzero]⟩
  by_contra hlt
  rw [if_neg hlt] at hz
  omega

/-- At most one delivery sees the counter of a block at zero. -/
theorem Inv.sawZero_unique {s : State} (h : Inv work producer s) {b : String} {d d' : ℕ}
    {dl dl' : Delivery} (hdl : s.deliveries[d]? = some dl) (hdl' : s.deliveries[d']? = some dl')
    (hb : inBlock work b dl = true) (hz : dl.phase.sawZero = true)
    (hb' : inBlock work b dl' = true) (hz' : dl'.phase.sawZero = true) : d = d' := by
  by_contra hne
  obtain ⟨w, hw, hwb⟩ := mem_blockItems.1 (inBlock_iff_mem.1 hb)
  have htwo := List.add_le_sum_map (sawZeroIn work b) hne hdl hdl'
  have hone : tally (sawZeroIn work b) s.deliveries ≤ 1 := by
    rw [h.zero b (hwb ▸ subtreeCount_ne_zero hw)]
    split_ifs <;> omega
  simp only [sawZeroIn, hb, hz, hb', hz', and_self, ↓reduceIte] at htwo
  simp only [tally] at hone
  omega

/-! ### At most once per URL -/

/-- No delivery publishes BLOCK_PROCESSED to a URL twice. -/
def SendsOnce (s : State) : Prop :=
  ∀ dl ∈ s.deliveries, (dl.phase.sent ++ dl.phase.todo).Nodup

/-- A property of phases that new deliveries have and `deliveryStep` keeps is one of all
deliveries. -/
theorem forall_phase_step {P : Phase → Prop} {s s' : State} {l : Label} (h0 : P .processing)
    (h : ∀ dl ∈ s.deliveries, P dl.phase) (hst : step work producer s l = some s')
    (hstep : ∀ w ∈ work, ∀ ph s₁ ph', P ph →
      deliveryStep producer s w ph l = some (s₁, ph') → P ph') :
    ∀ dl ∈ s'.deliveries, P dl.phase := by
  obtain ⟨item, -, -, rfl⟩ | ⟨d, dl, -, hdl, rfl⟩ | ⟨d, dl, w, s₁, ph, -, hdl, hw, hds, rfl⟩ :=
    step_cases hst
  · intro x hx
    rcases List.mem_append.1 hx with hx | hx
    · exact h x hx
    · rw [List.mem_singleton.1 hx]; exact h0
  · intro x hx
    rcases List.mem_or_eq_of_mem_set hx with hx | rfl
    · exact h x hx
    · exact h dl (List.mem_of_getElem? hdl)
  · intro x hx
    rcases List.mem_or_eq_of_mem_set hx with hx | rfl
    · exact h x hx
    · exact hstep w (List.mem_of_getElem? hw) _ _ _ (h dl (List.mem_of_getElem? hdl)) hds

theorem sendsOnce_step {s s' : State} {l : Label} (h : SendsOnce s)
    (hst : step work producer s l = some s') : SendsOnce s' := by
  refine forall_phase_step (P := fun ph => (ph.sent ++ ph.todo).Nodup) List.nodup_nil h hst ?_
  intro w _ ph s₁ ph' hph hds
  obtain ⟨-, hph', -, -⟩ | ⟨d', ref, url, urls, -, -, rfl, -⟩ | ⟨d', n, -, -, -, rfl, -⟩ |
    ⟨d', urls, -, hnd, -, rfl, -⟩ | ⟨d', e, url, rest, -, rfl, rfl, -⟩ |
    ⟨d', e, url, rest, -, rfl, rfl, -⟩ := deliveryStep_cases hds
  · rw [Phase.sent_of_not_counted hph', Phase.todo_of_not_counted hph']
    exact List.nodup_nil
  · have hc := Phase.counted_publishRest ref urls
    rw [Phase.sent_of_not_counted hc, Phase.todo_of_not_counted hc]
    exact List.nodup_nil
  · split_ifs <;> exact List.nodup_nil
  · cases urls with
    | none => exact List.nodup_nil
    | some urls =>
      simp only [afterGetAll, Phase.sent_emitRest, Phase.todo_emitRest]
      exact hnd
  · simp only [Phase.sent_emitRest, Phase.todo_emitRest, List.append_assoc,
      List.singleton_append]
    exact hph
  · simp only [Phase.sent_emitRest, Phase.todo_emitRest]
    exact hph.sublist (List.Sublist.append_left (List.sublist_cons_self _ _) _)

/-- **In every run** BLOCK_PROCESSED of a block is in the topic at most once per URL. -/
theorem countP_blockProcessed_le {s : State} (h : Inv work producer s) (hs : SendsOnce s)
    (b url : String) (p : ℕ) :
    (s.topic p).countP (isBlockProcessed b url) ≤
      if p = producer.partitionOf url then 1 else 0 := by
  rw [h.sent b url p]
  split_ifs
  · by_cases hb : subtreeCount work b = 0
    · have hzero : tally (sentTo work b url) s.deliveries = 0 := by
        by_contra hne
        obtain ⟨dl, -, hdl⟩ := tally_pos.1 (Nat.pos_of_ne_zero hne)
        rw [← card_blockItems, Finset.card_eq_zero] at hb
        simp [sentTo, inBlock_iff_mem, hb] at hdl
      omega
    · calc tally (sentTo work b url) s.deliveries
          ≤ tally (sawZeroIn work b) s.deliveries := tally_le_tally fun dl hdl => ?_
        _ ≤ 1 := by rw [h.zero b hb]; split_ifs <;> omega
      by_cases hz : dl.phase.sawZero = true
      · have := List.nodup_iff_count_le_one.1 (hs dl hdl).of_append_left url
        simp only [sentTo, sawZeroIn, hz, and_true]
        split_ifs <;> omega
      · simp [sentTo, Phase.sent_of_not_sawZero (Bool.eq_false_iff.2 hz)]
  · exact le_rfl

/-! ### A small block -/

/-- A block with two subtrees. -/
def twoSubtrees : List SubtreeWorkMessage :=
  [⟨"b", 1, "s0", 0, "hub"⟩, ⟨"b", 1, "s1", 1, "hub"⟩]

/-- A topic with one partition. -/
def onePartition : Producer := ⟨fun s => s.toUTF8.toList, fun _ => 0⟩

end SubtreeWorker

end MerkleService
