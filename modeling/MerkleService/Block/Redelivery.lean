import MerkleService.Block.BlockProcessed

/-!
# BLOCK_PROCESSED when work items are delivered again

Kafka delivers at least once: a worker that stops before its offset is committed leaves its work
item to be handled again.  The counter counts handled messages and not subtrees, so an item that
had been counted before the stop is counted twice.

* `block_processed_not_early` : as long as no item is counted twice before the counter is at zero,
  BLOCK_PROCESSED is published only after every subtree has been processed.
* `block_processed_early` : an item that is counted twice makes BLOCK_PROCESSED overtake the other
  subtree.
-/

namespace MerkleService

namespace SubtreeWorker

open Kafka

variable {work : List SubtreeWorkMessage} {producer : Producer}

/-- A decrement that finds the counter above zero is the first one of its item. -/
def CountedOnce (work : List SubtreeWorkMessage) (s : State) : Label → Prop
  | .decrement d true => ∀ dl w n, s.deliveries[d]? = some dl → work[dl.item]? = some w →
      s.counter w.blockHash = some n → 0 < n →
      ∀ dl' ∈ s.deliveries, dl'.item = dl.item → dl'.phase.counted = false
  | _ => True

/-- What a step does to the counts of the items: nothing, or one more for the item that is
decremented. -/
theorem countedAt_step {s s' : State} {l : Label} (hst : step work producer s l = some s') :
    (∀ i, tally (countedAt i) s'.deliveries = tally (countedAt i) s.deliveries) ∨
    (∃ d dl w n, l = .decrement d true ∧ s.deliveries[d]? = some dl ∧ work[dl.item]? = some w ∧
      s.counter w.blockHash = some n ∧ ∀ i, tally (countedAt i) s'.deliveries =
        tally (countedAt i) s.deliveries + if dl.item = i then 1 else 0) := by
  obtain ⟨item, -, hlt, rfl⟩ | ⟨d, dl, -, hdl, rfl⟩ | ⟨d, dl, w, s₁, ph, hd, hdl, hw, hds, rfl⟩ :=
    step_cases hst
  · refine Or.inl fun i => ?_
    rw [tally_append]
    simp [countedAt, Phase.counted]
  · exact Or.inl fun i => tally_set_same hdl rfl
  have hsame : ph.counted = dl.phase.counted → ∀ i,
      tally (countedAt i) (s.deliveries.set d { dl with phase := ph }) =
        tally (countedAt i) s.deliveries :=
    fun hc i => tally_set_same hdl (by simp only [countedAt, hc])
  obtain ⟨hph, hph', -, -⟩ | ⟨d', ref, url, urls, -, hph, rfl, rfl⟩ |
    ⟨d', n, rfl, hph, hn, rfl, rfl⟩ | ⟨d', urls, -, -, hph, rfl, rfl⟩ |
    ⟨d', e, url, rest, -, hph, rfl, rfl⟩ | ⟨d', e, url, rest, -, hph, rfl, rfl⟩ :=
    deliveryStep_cases hds
  · exact Or.inl (hsame (hph'.trans hph.symm))
  · exact Or.inl (hsame (by rw [hph, Phase.counted_publishRest]; rfl))
  · -- the decrement
    obtain rfl : d' = d := by simpa [Label.mover] using hd
    refine Or.inr ⟨d', dl, w, n, rfl, hdl, hw, hn, fun i => ?_⟩
    have hold : dl.phase.counted = false := by rw [hph]; rfl
    have hnew : (if n - 1 = 0 then Phase.emitting else Phase.done none).counted = true := by
      split_ifs <;> rfl
    have := tally_set (countedAt i) hdl
      { dl with phase := if n - 1 = 0 then Phase.emitting else Phase.done none }
    simpa [countedAt, hold, hnew] using this
  · refine Or.inl (hsame ?_)
    rw [hph]
    cases urls
    · rfl
    · exact Phase.counted_emitRest _ _
  · exact Or.inl (hsame (by rw [hph, Phase.counted_emitRest]; rfl))
  · exact Or.inl (hsame (by rw [hph, Phase.counted_emitRest]; rfl))

/-- While a block is being counted no item of it is counted twice, and when the count is complete
every item has been counted. -/
def CountsItems (work : List SubtreeWorkMessage) (s : State) : Prop :=
  ∀ b, ∀ i ∈ blockItems work b,
    if tally (countedIn work b) s.deliveries < subtreeCount work b then
      tally (countedAt i) s.deliveries ≤ 1
    else 0 < tally (countedAt i) s.deliveries

theorem countsItems_step {s s' : State} {l : Label} (hinv : Inv work producer s)
    (h : CountsItems work s) (hok : CountedOnce work s l)
    (hst : step work producer s l = some s') : CountsItems work s' := by
  obtain hsame | ⟨d, dl, w, n, rfl, hdl, hw, hn, hc⟩ := countedAt_step hst
  · intro b i hi
    rw [tally_countedIn, hsame i, Finset.sum_congr rfl fun j _ => hsame j, ← tally_countedIn]
    exact h b i hi
  intro b i hi
  have htot : tally (countedIn work b) s'.deliveries =
      tally (countedIn work b) s.deliveries +
        if dl.item ∈ blockItems work b then 1 else 0 := by
    rw [tally_countedIn, tally_countedIn, Finset.sum_congr rfl fun j _ => hc j,
      Finset.sum_add_distrib, Finset.sum_ite_eq]
  have hi' := hc i
  have hcur := h b i hi
  by_cases hb : dl.item ∈ blockItems work b
  · -- a decrement of this block
    rw [if_pos hb] at htot
    obtain ⟨w', hw', hwb⟩ := mem_blockItems.1 hb
    obtain rfl : w = w' := by simpa [hw] using hw'
    subst hwb
    have hcount := hinv.counter _ (subtreeCount_ne_zero hw)
    rw [hn, Option.some.injEq] at hcount
    by_cases hpos : 0 < n
    · -- the first one of its item: still no item is counted twice
      have hfresh : tally (countedAt dl.item) s.deliveries = 0 := by
        by_contra hne
        obtain ⟨dl', hmem, hdl'⟩ := tally_pos.1 (Nat.pos_of_ne_zero hne)
        have hno := hok dl w n hdl hw hn hpos dl' hmem
        by_cases hit : dl'.item = dl.item
        · simp [countedAt, hno hit] at hdl'
        · simp [countedAt, hit] at hdl'
      have hone : ∀ j ∈ blockItems work w.blockHash, tally (countedAt j) s'.deliveries ≤ 1 := by
        intro j hj
        have hcj := hc j
        have hj' := h w.blockHash j hj
        rw [if_pos (by omega)] at hj'
        by_cases hji : dl.item = j
        · subst hji; rw [hcj, hfresh]; simp
        · rw [hcj, if_neg hji]; omega
      split_ifs with hlt
      · exact hone i hi
      · exact counted_of_complete hone (not_lt.1 hlt) i hi
    · rw [if_neg (by omega)] at hcur ⊢
      omega
  · -- a decrement of another block
    have hne : dl.item ≠ i := fun he => hb (he ▸ hi)
    rw [if_neg hb, add_zero] at htot
    rw [if_neg hne, add_zero] at hi'
    rw [htot, hi']
    exact hcur

/-- **BLOCK_PROCESSED is not early when no item is counted twice.**  In every run in which items
may be delivered any number of times, calls fail and workers stop anywhere, but in which a decrement
that finds the counter above zero is the first one of its item: BLOCK_PROCESSED of a block is
published only after every work item of the block has been processed and its STUMP messages
published, and at most once per URL. -/
theorem block_processed_not_early {s : State}
    (h : (machine work producer).Run (CountedOnce work) (init work) s) (b url : String) (p : ℕ) :
    (∀ m ∈ s.topic p, isBlockProcessed b url m = true → ∀ i w, work[i]? = some w →
      w.blockHash = b → ∃ dl ∈ s.deliveries, dl.item = i ∧ dl.phase.published = true) ∧
    (s.topic p).countP (isBlockProcessed b url) ≤
      if p = producer.partitionOf url then 1 else 0 := by
  have hall : Inv work producer s ∧ CountsItems work s ∧ SendsOnce s := by
    refine h.invariant (I := fun s => Inv work producer s ∧ CountsItems work s ∧ SendsOnce s)
      ⟨inv_init, ?_, ?_⟩ ?_
    · intro b i hi
      have : 0 < (blockItems work b).card := Finset.card_pos.2 ⟨i, hi⟩
      rw [card_blockItems] at this
      simpa [init, tally] using this
    · simp [SendsOnce, init]
    · rintro s l s' ⟨hi, hc, hs⟩ hok hst
      exact ⟨inv_step hi hst, countsItems_step hi hc hok hst, sendsOnce_step hs hst⟩
  obtain ⟨hinv, hcounts, hsends⟩ := hall
  refine ⟨fun m hm hbp i w hw hwb => ?_, countP_blockProcessed_le hinv hsends b url p⟩
  have hcomplete := hinv.complete hm hbp
  have hi := hcounts b i (mem_blockItems.2 ⟨w, hw, hwb⟩)
  rw [if_neg (by omega)] at hi
  obtain ⟨dl, hdl, hpos⟩ := tally_pos.1 hi
  refine ⟨dl, hdl, ?_⟩
  by_cases hd : dl.item = i ∧ dl.phase.counted = true
  · exact ⟨hd.1, Phase.published_of_counted hd.2⟩
  · simp [countedAt, hd] at hpos

/-- Item `0` is processed again after a stop before its decrement; BLOCK_PROCESSED is published
when both items have been counted. -/
theorem block_processed_not_early_redelivered :
    ∃ s, (machine twoSubtrees onePartition).Run (CountedOnce twoSubtrees) (init twoSubtrees) s ∧
      s.deliveries.length = 3 ∧ (s.topic 0).countP (isBlockProcessed "b" "u") = 1 ∧
      ∀ i w, twoSubtrees[i]? = some w → w.blockHash = "b" →
        ∃ dl ∈ s.deliveries, dl.item = i ∧ dl.phase.published = true := by
  have h₁ : (machine twoSubtrees onePartition).Run (CountedOnce twoSubtrees)
      (init twoSubtrees) _ := LTS.Run.start.next (l := Label.take 0) trivial rfl
  have h₂ := h₁.next (l := Label.process 0 .nothing) trivial rfl
  have h₃ := h₂.next (l := Label.crash 0) trivial rfl
  have h₄ := h₃.next (l := Label.take 0) trivial rfl
  have h₅ := h₄.next (l := Label.take 1) trivial rfl
  have h₆ := h₅.next (l := Label.process 1 .nothing) trivial rfl
  have h₇ := h₆.next (l := Label.decrement 1 true)
    (fun dl _ _ hdl _ _ _ => by obtain rfl := Option.some.inj hdl; decide) rfl
  have h₈ := h₇.next (l := Label.process 2 .nothing) trivial rfl
  have h₉ := h₈.next (l := Label.decrement 2 true)
    (fun dl _ _ hdl _ _ _ => by obtain rfl := Option.some.inj hdl; decide) rfl
  have h₁₀ := h₉.next (l := Label.getAll 2 (some ["u"])) trivial rfl
  have h₁₁ := h₁₀.next (l := Label.emit 2 true) trivial rfl
  exact ⟨_, h₁₁, rfl, by decide,
    (block_processed_not_early h₁₁ "b" "u" 0).1 (blockProcessedMessage "b" "u")
      (List.mem_singleton.2 rfl) (by decide)⟩

/-- A worker handles item `0` up to its decrement and stops before the offset is committed; the
item is delivered and counted again, and BLOCK_PROCESSED is published although item `1` has not
been touched. -/
theorem block_processed_early :
    ¬ ∀ work producer s, (machine work producer).Reachable (init work) s → ∀ b url p,
      ∀ m ∈ s.topic p, isBlockProcessed b url m = true → ∀ i w, work[i]? = some w →
        w.blockHash = b → ∃ dl ∈ s.deliveries, dl.item = i ∧ dl.phase.published = true := by
  intro hall
  have h₁ : (machine twoSubtrees onePartition).Reachable (init twoSubtrees) _ :=
    LTS.Run.start.next (l := Label.take 0) trivial rfl
  have h₂ := h₁.next (l := Label.process 0 .nothing) trivial rfl
  have h₃ := h₂.next (l := Label.decrement 0 true) trivial rfl
  have h₄ := h₃.next (l := Label.crash 0) trivial rfl
  have h₅ := h₄.next (l := Label.take 0) trivial rfl
  have h₆ := h₅.next (l := Label.process 1 .nothing) trivial rfl
  have h₇ := h₆.next (l := Label.decrement 1 true) trivial rfl
  have h₈ := h₇.next (l := Label.getAll 1 (some ["u"])) trivial rfl
  have h₉ := h₈.next (l := Label.emit 1 true) trivial rfl
  obtain ⟨dl, hdl, hitem, -⟩ := hall _ _ _ h₉ "b" "u" 0 (blockProcessedMessage "b" "u")
    (List.mem_singleton.2 rfl) (by decide) 1 ⟨"b", 1, "s1", 1, "hub"⟩ rfl rfl
  revert dl
  decide

end SubtreeWorker

end MerkleService
