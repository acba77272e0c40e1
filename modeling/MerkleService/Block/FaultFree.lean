import MerkleService.Block.BlockProcessed

/-!
# BLOCK_PROCESSED when every item is handled once

Every worker publishes all its STUMP messages before its own decrement.  When each work item is
handled exactly once and no store or publish call fails, this is enough to order the messages of
a block: a STUMP message is published by a delivery that is not counted yet, so the count of its
block is not complete and its BLOCK_PROCESSED is not in the topic.

* `block_processed_once_and_last` : exactly one worker sees the counter at zero, BLOCK_PROCESSED is
  published exactly once per URL, and behind every STUMP message of its block and URL.
-/

namespace MerkleService

namespace SubtreeWorker

open Kafka

variable {work : List SubtreeWorkMessage} {producer : Producer}

/-- Every item is delivered once, no store or publish call fails and no worker stops.  What
`ProcessBlockSubtree` answers is arbitrary. -/
def FaultFree (s : State) : Label → Prop
  | .take item => ∀ dl ∈ s.deliveries, dl.item ≠ item
  | .process _ _ => True
  | .putStump _ ref => ref.isSome = true
  | .publish _ ok | .decrement _ ok | .emit _ ok => ok = true
  | .getAll _ urls => urls.isSome = true
  | .crash _ => False

/-- The delivery is of item `i`. -/
def itemAt (i : ℕ) (dl : Delivery) : ℕ := if dl.item = i then 1 else 0

/-- Without failures an emission has done all URLs but the remaining ones, and every decrement is
counted. -/
def Phase.Unfailed : Phase → Prop
  | .uncounted => False
  | .emittingTo e rest => e.urls = e.sent ++ rest
  | .done (some e) => e.urls = e.sent
  | _ => True

/-- What holds in fault-free runs, in addition to `Inv`. -/
structure FaultFreeInv (work : List SubtreeWorkMessage) (producer : Producer) (s : State) :
    Prop where
  once : ∀ i, tally (itemAt i) s.deliveries ≤ 1
  unfailed : ∀ dl ∈ s.deliveries, dl.phase.Unfailed
  last : ∀ b url, (s.topic (producer.partitionOf url)).Pairwise fun x y =>
    isBlockProcessed b url x = true → isStump b url y = false

@[simp] theorem Phase.unfailed_publishRest (ref : String) (urls : List String) :
    (Phase.publishRest ref urls).Unfailed := by
  cases urls <;> exact trivial

@[simp] theorem Phase.unfailed_emitRest {e : Emission} {rest : List String}
    (h : e.urls = e.sent ++ rest) : (Phase.emitRest e rest).Unfailed := by
  cases rest with
  | nil => simpa [Phase.emitRest, Phase.Unfailed] using h
  | cons u rest => exact h

theorem FaultFreeInv.eq_of_item {s : State} (h : FaultFreeInv work producer s) {d d' : ℕ}
    {dl dl' : Delivery} (hdl : s.deliveries[d]? = some dl) (hdl' : s.deliveries[d']? = some dl')
    (hitem : dl'.item = dl.item) : dl' = dl := by
  have hsame : d = d' := by
    by_contra hne
    have htwo := List.add_le_sum_map (itemAt dl.item) hne hdl hdl'
    have hone := h.once dl.item
    simp only [itemAt, hitem, ↓reduceIte] at htwo
    simp only [tally] at hone
    omega
  subst hsame
  rw [hdl] at hdl'
  exact (Option.some.inj hdl').symm

/-- Handled once, an item that is still publishing leaves its block incomplete. -/
theorem FaultFreeInv.incomplete {s : State} (h : FaultFreeInv work producer s) {d : ℕ}
    {dl : Delivery} {w : SubtreeWorkMessage} (hdl : s.deliveries[d]? = some dl)
    (hw : work[dl.item]? = some w) (hc : dl.phase.counted = false) :
    tally (countedIn work w.blockHash) s.deliveries < subtreeCount work w.blockHash := by
  by_contra hlt
  have hone : ∀ i ∈ blockItems work w.blockHash, tally (countedAt i) s.deliveries ≤ 1 :=
    fun i _ => (tally_le_tally fun x _ => by
      simp only [countedAt, itemAt]; split_ifs <;> simp_all).trans (h.once i)
  have hpos := counted_of_complete hone (not_lt.1 hlt) dl.item (mem_blockItems.2 ⟨w, hw, rfl⟩)
  obtain ⟨dl', hmem, hdl'⟩ := tally_pos.1 hpos
  obtain ⟨d', hd'⟩ := List.getElem?_of_mem hmem
  obtain ⟨hitem, hcounted⟩ : dl'.item = dl.item ∧ dl'.phase.counted = true := by
    by_contra hno
    simp [countedAt, hno] at hdl'
  obtain rfl := h.eq_of_item hdl hd' hitem
  simp [hc] at hcounted

/-- Appending a message keeps the order unless it is a STUMP message behind BLOCK_PROCESSED. -/
theorem last_publish {s : State} {url : String} {m : CallbackTopicMessage}
    (h : ∀ b u, (s.topic (producer.partitionOf u)).Pairwise fun x y =>
      isBlockProcessed b u x = true → isStump b u y = false)
    (hm : ∀ b u, isStump b u m = true →
      ∀ x ∈ s.topic (producer.partitionOf u), isBlockProcessed b u x = false) (b u : String) :
    ((s.publish producer url m).topic (producer.partitionOf u)).Pairwise fun x y =>
      isBlockProcessed b u x = true → isStump b u y = false := by
  by_cases hp : producer.partitionOf u = producer.partitionOf url
  · simp only [State.publish, Producer.publishWithHashKey, hp, Function.update_self]
    rw [← hp, List.pairwise_append]
    refine ⟨h b u, List.pairwise_singleton _ _, fun x hx y hy hbp => ?_⟩
    obtain rfl := List.mem_singleton.1 hy
    by_contra hst
    simp [hm b u (Bool.eq_true_of_not_eq_false hst) x hx] at hbp
  · simpa only [State.publish, Producer.publishWithHashKey, Function.update_of_ne hp] using h b u

theorem unfailed_step {s s' : State} {l : Label} (hinv : Inv work producer s)
    (h : ∀ dl ∈ s.deliveries, dl.phase.Unfailed) (hok : FaultFree s l)
    (hst : step work producer s l = some s') : ∀ dl ∈ s'.deliveries, dl.phase.Unfailed := by
  refine forall_phase_step trivial h hst ?_
  intro w hw ph s₁ ph' hph hds
  unfold deliveryStep at hds
  split at hds
  · rename_i result
    simp only [Option.some.injEq, Prod.mk.injEq] at hds
    obtain ⟨-, rfl⟩ := hds
    rcases result with _ | _ | ⟨_ | _, _⟩ <;> exact trivial
  · rename_i urls d ref
    simp only [Option.some.injEq, Prod.mk.injEq] at hds
    obtain ⟨-, rfl⟩ := hds
    cases ref
    · exact trivial
    · exact Phase.unfailed_publishRest _ _
  · simp only [Option.some.injEq, Prod.mk.injEq] at hds
    obtain ⟨-, rfl⟩ := hds
    exact Phase.unfailed_publishRest _ _
  · -- the counter of a block with a work item exists, so the decrement is counted
    rename_i d ok
    obtain rfl : ok = true := hok
    obtain ⟨i, hi⟩ := List.getElem?_of_mem hw
    simp only [↓reduceIte, hinv.counter _ (subtreeCount_ne_zero hi), Option.map_some,
      Option.some.injEq, Prod.mk.injEq] at hds
    obtain ⟨-, rfl⟩ := hds
    simp only [afterDecrement]
    split_ifs <;> exact trivial
  · rename_i d urls
    split_ifs at hds
    simp only [Option.some.injEq, Prod.mk.injEq] at hds
    obtain ⟨-, rfl⟩ := hds
    obtain ⟨urls, rfl⟩ := Option.isSome_iff_exists.1 hok
    exact Phase.unfailed_emitRest rfl
  · rename_i e url rest d ok
    obtain rfl : ok = true := hok
    simp only [↓reduceIte, Option.some.injEq, Prod.mk.injEq] at hds
    obtain ⟨-, rfl⟩ := hds
    refine Phase.unfailed_emitRest ?_
    have : e.urls = e.sent ++ url :: rest := hph
    simpa using this
  · cases hds

theorem faultFreeInv_step {s s' : State} {l : Label} (hinv : Inv work producer s)
    (h : FaultFreeInv work producer s) (hok : FaultFree s l)
    (hst : step work producer s l = some s') : FaultFreeInv work producer s' := by
  have hunf := unfailed_step hinv h.unfailed hok hst
  obtain ⟨item, rfl, hlt, rfl⟩ | ⟨d, dl, rfl, hdl, rfl⟩ |
    ⟨d, dl, w, s₁, ph, -, hdl, hw, hds, rfl⟩ :=
    step_cases hst
  · refine ⟨fun i => ?_, hunf, h.last⟩
    rw [tally_append]
    simp only [itemAt]
    split_ifs with hi
    · -- no earlier delivery of this item
      have hzero : tally (itemAt i) s.deliveries = 0 := by
        by_contra hne
        obtain ⟨dl, hmem, hdl⟩ := tally_pos.1 (Nat.pos_of_ne_zero hne)
        have : dl.item ≠ i := hi ▸ hok dl hmem
        simp [itemAt, this] at hdl
      omega
    · exact h.once i
  · exact absurd hok id
  have honce : ∀ i, tally (itemAt i) (s.deliveries.set d { dl with phase := ph }) ≤ 1 :=
    fun i => (show tally (itemAt i) (s.deliveries.set d { dl with phase := ph }) =
      tally (itemAt i) s.deliveries from tally_set_same hdl rfl).trans_le (h.once i)
  obtain ⟨-, -, htop, -⟩ | ⟨d', ref, url, urls, -, hph, rfl, rfl⟩ | ⟨d', n, -, hph, hn, rfl, rfl⟩ |
    ⟨d', urls, -, -, hph, rfl, rfl⟩ | ⟨d', e, url, rest, -, hph, rfl, rfl⟩ |
    ⟨d', e, url, rest, -, hph, rfl, rfl⟩ := deliveryStep_cases hds
  · refine ⟨honce, hunf, fun b url => ?_⟩
    simp only [htop]
    exact h.last b url
  · -- a STUMP message: its block is not complete, so its BLOCK_PROCESSED is not there yet
    refine ⟨honce, hunf, last_publish h.last fun b u hst x hx => ?_⟩
    by_contra hbp
    have hlt := h.incomplete hdl hw (by rw [hph]; rfl)
    have hle := hinv.complete hx (Bool.eq_true_of_not_eq_false hbp)
    have hb : w.blockHash = b := by
      simp only [isStump, stumpMessage, decide_eq_true_eq] at hst
      exact hst.2.1
    subst hb
    omega
  · exact ⟨honce, hunf, h.last⟩
  · exact ⟨honce, hunf, h.last⟩
  · refine ⟨honce, hunf, last_publish h.last fun b u hst => ?_⟩
    simp [isStump, blockProcessedMessage] at hst
  · exact ⟨honce, hunf, h.last⟩

/-- Without failures, the block whose items have all returned is complete. -/
theorem FaultFreeInv.complete {s : State} (h : FaultFreeInv work producer s) {b : String}
    (hret : ∀ i w, work[i]? = some w → w.blockHash = b →
      ∃ dl ∈ s.deliveries, dl.item = i ∧ dl.phase.returned = true) :
    subtreeCount work b ≤ tally (countedIn work b) s.deliveries := by
  rw [tally_countedIn, ← card_blockItems, Finset.card_eq_sum_ones]
  refine Finset.sum_le_sum fun i hi => ?_
  obtain ⟨w, hw, hwb⟩ := mem_blockItems.1 hi
  obtain ⟨dl, hdl, hitem, hr⟩ := hret i w hw hwb
  have hc : dl.phase.counted = true := by
    have hu := h.unfailed dl hdl
    cases hph : dl.phase <;> simp_all [Phase.returned, Phase.Unfailed, Phase.counted]
  exact tally_pos.2 ⟨dl, hdl, by simp [countedAt, hitem, hc]⟩

/-- Without failures, once the items of a block have returned one of them has seen zero and
published to all URLs. -/
theorem FaultFreeInv.exists_emission {s : State} (h : FaultFreeInv work producer s)
    (hinv : Inv work producer s) {b : String} (hb : 1 ≤ subtreeCount work b)
    (hret : ∀ i w, work[i]? = some w → w.blockHash = b →
      ∃ dl ∈ s.deliveries, dl.item = i ∧ dl.phase.returned = true) :
    ∃ (d : ℕ) (dl : Delivery) (e : Emission), s.deliveries[d]? = some dl ∧
      inBlock work b dl = true ∧ dl.phase = .done (some e) ∧ e.urls = e.sent := by
  -- the count is complete, so some delivery saw zero
  have hzero := hinv.zero b (by omega)
  rw [if_pos (h.complete hret)] at hzero
  obtain ⟨dl, hdl, hpos⟩ := tally_pos.1 (show 0 < tally (sawZeroIn work b) s.deliveries by omega)
  obtain ⟨hin, hz⟩ : inBlock work b dl = true ∧ dl.phase.sawZero = true := by
    by_contra hno
    simp [sawZeroIn, hno] at hpos
  -- its item is delivered once, so it is the delivery that returned
  obtain ⟨w, hw, hwb⟩ := mem_blockItems.1 (inBlock_iff_mem.1 hin)
  obtain ⟨dl', hdl', hitem, hr⟩ := hret dl.item w hw hwb
  obtain ⟨d, hd⟩ := List.getElem?_of_mem hdl
  obtain ⟨d', hd'⟩ := List.getElem?_of_mem hdl'
  obtain rfl := h.eq_of_item hd hd' hitem
  have hunf := h.unfailed dl' hdl
  cases hph : dl'.phase with
  | done e =>
    cases e with
    | none => simp [hph, Phase.sawZero] at hz
    | some e =>
      rw [hph] at hunf
      exact ⟨d, dl', e, hd, hin, hph, hunf⟩
  | _ => simp_all [Phase.returned, Phase.sawZero]

/-- The delivery that saw zero, and no other one, has put BLOCK_PROCESSED into the topic. -/
theorem countP_of_emission {s : State} (hinv : Inv work producer s) (hsends : SendsOnce s)
    {b : String} {d : ℕ} {dl : Delivery} {e : Emission} (hd : s.deliveries[d]? = some dl)
    (hin : inBlock work b dl = true) (he : dl.phase = .done (some e)) (hurls : e.urls = e.sent)
    (p : ℕ) (url : String) : (s.topic p).countP (isBlockProcessed b url) =
      if p = producer.partitionOf url ∧ url ∈ e.urls then 1 else 0 := by
  have hle := countP_blockProcessed_le hinv hsends b url p
  have hsent := hinv.sent b url p
  by_cases hp : p = producer.partitionOf url
  · rw [if_pos hp] at hle hsent
    by_cases hu : url ∈ e.urls
    · have hge : sentTo work b url dl ≤ tally (sentTo work b url) s.deliveries :=
        List.le_sum_map _ (List.mem_of_getElem? hd)
      have : 0 < e.sent.count url := List.count_pos_iff.2 (hurls ▸ hu)
      rw [if_pos ⟨hp, hu⟩]
      simp only [sentTo, hin, he, Phase.sent, ↓reduceIte] at hge
      omega
    · -- any publisher would be the delivery that saw zero
      rw [if_neg fun hc => hu hc.2, hsent]
      by_contra hne
      obtain ⟨x, hx, hxpos⟩ := tally_pos.1 (Nat.pos_of_ne_zero hne)
      obtain ⟨k, hk⟩ := List.getElem?_of_mem hx
      have hxin : inBlock work b x = true := by
        by_contra hno; simp [sentTo, hno] at hxpos
      have hxz : x.phase.sawZero = true := by
        by_contra hno
        simp [sentTo, Phase.sent_of_not_sawZero (Bool.eq_false_iff.2 hno)] at hxpos
      obtain rfl := hinv.sawZero_unique hk hd hxin hxz hin (by rw [he]; rfl)
      rw [hd, Option.some.injEq] at hk
      subst hk
      simp only [sentTo, hxin, he, Phase.sent, ↓reduceIte] at hxpos
      exact hu (hurls ▸ List.count_pos_iff.1 hxpos)
  · rw [if_neg fun hc => hp hc.1]
    rw [if_neg hp] at hle
    omega

/-- **BLOCK_PROCESSED is published once and last.**  In every fault-free run, for every block with
at least one subtree:

* in the partition of a URL no STUMP message of the block for that URL comes after its
  BLOCK_PROCESSED message;
* at most one worker sees the counter at zero;
* once all work items of the block have been handled, exactly one has, and BLOCK_PROCESSED is in the
  topic exactly once for each URL that it got from `GetAll`, in that URL's partition. -/
theorem block_processed_once_and_last {s : State}
    (h : (machine work producer).Run FaultFree (init work) s) (b : String)
    (hb : 1 ≤ subtreeCount work b) :
    (∀ url, (s.topic (producer.partitionOf url)).Pairwise fun x y =>
      isBlockProcessed b url x = true → isStump b url y = false) ∧
    (∀ (d d' : ℕ) (dl dl' : Delivery), s.deliveries[d]? = some dl → s.deliveries[d']? = some dl' →
      inBlock work b dl = true → dl.phase.sawZero = true →
      inBlock work b dl' = true → dl'.phase.sawZero = true → d = d') ∧
    ((∀ i w, work[i]? = some w → w.blockHash = b →
        ∃ dl ∈ s.deliveries, dl.item = i ∧ dl.phase.returned = true) →
      ∃ dl ∈ s.deliveries, ∃ e, inBlock work b dl = true ∧ dl.phase = .done (some e) ∧
        ∀ p url, (s.topic p).countP (isBlockProcessed b url) =
          if p = producer.partitionOf url ∧ url ∈ e.urls then 1 else 0) := by
  have hall : Inv work producer s ∧ SendsOnce s ∧ FaultFreeInv work producer s := by
    refine h.invariant (I := fun s => Inv work producer s ∧ SendsOnce s ∧
      FaultFreeInv work producer s) ⟨inv_init, ?_, ?_⟩ ?_
    · simp [SendsOnce, init]
    · exact ⟨by simp [init, tally], by simp [init], by simp [init]⟩
    · rintro s l s' ⟨hi, hs, hf⟩ hok hst
      exact ⟨inv_step hi hst, sendsOnce_step hs hst, faultFreeInv_step hi hf hok hst⟩
  obtain ⟨hinv, hsends, hff⟩ := hall
  refine ⟨hff.last b, fun d d' dl dl' hd hd' hb hz hb' hz' =>
    hinv.sawZero_unique hd hd' hb hz hb' hz', fun hret => ?_⟩
  obtain ⟨d, dl, e, hd, hin, he, hurls⟩ := hff.exists_emission hinv hb hret
  exact ⟨dl, List.mem_of_getElem? hd, e, hin, he, countP_of_emission hinv hsends hd hin he hurls⟩

/-- Two workers handle the two subtrees of a block concurrently, one of them with a STUMP message
for the URL that is then told that the block is processed. -/
theorem block_processed_once_and_last_two :
    ∃ s, (machine twoSubtrees onePartition).Run FaultFree (init twoSubtrees) s ∧
      s.topic 0 = [stumpMessage ⟨"b", 1, "s0", 0, "hub"⟩ "ref" "u",
        blockProcessedMessage "b" "u"] ∧
      ∃ dl ∈ s.deliveries, ∃ e, inBlock twoSubtrees "b" dl = true ∧ dl.phase = .done (some e) ∧
        ∀ p url, (s.topic p).countP (isBlockProcessed "b" url) =
          if p = onePartition.partitionOf url ∧ url ∈ e.urls then 1 else 0 := by
  have h₁ : (machine twoSubtrees onePartition).Run FaultFree (init twoSubtrees) _ :=
    LTS.Run.start.next (l := Label.take 0) (by intro dl hdl; cases hdl) rfl
  have h₂ := h₁.next (l := Label.take 1) (by simp [FaultFree, init]) rfl
  have h₃ := h₂.next (l := Label.process 0 (.groups [("u", ["t"])] [])) trivial rfl
  have h₄ := h₃.next (l := Label.putStump 0 (some "ref")) rfl rfl
  have h₅ := h₄.next (l := Label.process 1 .nothing) trivial rfl
  have h₆ := h₅.next (l := Label.decrement 1 true) rfl rfl
  have h₇ := h₆.next (l := Label.publish 0 true) rfl rfl
  have h₈ := h₇.next (l := Label.decrement 0 true) rfl rfl
  have h₉ := h₈.next (l := Label.getAll 0 (some ["u"])) rfl rfl
  have h₁₀ := h₉.next (l := Label.emit 0 true) rfl rfl
  refine ⟨_, h₁₀, rfl, (block_processed_once_and_last h₁₀ "b" (by decide)).2.2 ?_⟩
  intro i w hw _
  have hi : i < 2 := (List.getElem?_eq_some_iff.1 hw).1
  interval_cases i
  · exact ⟨_, List.mem_cons_self, rfl, rfl⟩
  · exact ⟨_, List.mem_cons_of_mem _ List.mem_cons_self, rfl, rfl⟩

end SubtreeWorker

end MerkleService
