import MerkleService.Cache.OnDemand

/-!
# The two buckets with allocation on demand answer alike

The first pass of `cleanLockedMap` of `bucketTrimmed` counts all entries of the generation before,
so that dead entries may stay in its map which `bucketUnallocated` removes.  They are never taken
for live ones: an entry stays for one generation only, since an entry that is two generations old is
not counted, and until then the test of `Get` tells it from a live one.

* `same_answers` : **both buckets give the same answers**, whatever they are asked.
-/

namespace MerkleService

namespace Cache

/-- Two answers that are the same but for the text of an error; a panic is not an answer. -/
def Answer.Same : Option Answer → Option Answer → Prop
  | some (.set err), some (.set err') => err = none ↔ err' = none
  | some r, some r' => r = r'
  | _, _ => False

theorem Expected.same {a : Spec} {c : Call} {r r' : Answer} (h : Expected a c r)
    (h' : Expected a c r') : Answer.Same (some r) (some r') := by
  cases c with
  | set mmapErr k v hash =>
    obtain ⟨err, rfl, herr⟩ := h
    obtain ⟨err', rfl, herr'⟩ := h'
    exact herr.trans herr'.symm
  | get dst k hash returnDst =>
    simp only [Expected] at h h'
    rw [h, h']
    cases a.find hash k <;> rfl
  | setMulti mmapErr keys values =>
    cases h
    cases h'
    rfl
  | setMultiKeysSingleValue mmapErr keys value =>
    cases h
    cases h'
    rfl
  | del hash =>
    cases h
    cases h'
    rfl
  | reset =>
    cases h
    cases h'
    rfl

/-- **The two buckets with allocation on demand cannot be told apart.**  For every size, every hash
function and every sequence of calls with every choice of hashes, when memory can be mapped:
neither bucket panics, they fail the same `Set` calls, and every `Get` returns the same. -/
theorem same_answers (sum64 : List UInt8 → UInt64) {maxBytes : ℕ} {b₀ : Bucket}
    (hinit : Bucket.init maxBytes = .ok b₀) (calls : List Call)
    (hcalls : ∀ c ∈ calls, c.Supplied ∧ c.Mapped) :
    List.Forall₂ Answer.Same ((OnDemand.trimmed.machine sum64).answers (some b₀) calls)
      ((OnDemand.unallocated.machine sum64).answers (some b₀) calls) := by
  have hstart := refines_init hinit
  -- both buckets stand for the same map
  refine Mealy.forall₂_answers (R := fun s s' => ∃ b b' a, s = some b ∧ s' = some b' ∧
    b'.chunks.length = b.chunks.length ∧ Refines 1 b a ∧ Refines 1 b' a) ?_
    ⟨b₀, b₀, .empty, rfl, rfl, rfl, hstart, hstart⟩ (Mealy.along_of_forall_mem hcalls _)
  rintro _ _ c ⟨b, b', a, rfl, rfl, hlen, h, h'⟩ ⟨hsupplied, hmapped⟩
  obtain ⟨b₁, r, a₁, hcall, hlen₁, h₁, hspec⟩ := @Refines.call b a sum64 .trimmed h c hsupplied
  obtain ⟨b₁', r', a₁', hcall', hlen₁', h₁', hspec'⟩ :=
    @Refines.call b' a sum64 .unallocated h' c hsupplied
  obtain ⟨rfl, hr⟩ := hspec hmapped
  obtain ⟨rfl, hr'⟩ := hspec' hmapped
  rw [hlen] at h₁'
  refine ⟨⟨b₁, b₁', _, ?_, ?_, hlen₁'.trans (hlen.trans hlen₁.symm), h₁, h₁'⟩, ?_⟩
  · simp [OnDemand.machine, hcall]
  · simp [OnDemand.machine, hcall']
  · simpa [OnDemand.machine, hcall, hcall'] using hr.same hr'

/-- One chunk, and a `Set` that wraps. -/
theorem same_answers_wrapped :
    ∃ b₀ v, Bucket.init 1 = .ok b₀ ∧ v.length = 600 ∧
      List.Forall₂ Answer.Same
        ((OnDemand.trimmed.machine fun _ => 7).answers (some b₀)
          [.set none [1] v 7, .set none [2] v 8, .get [] [1] 7 true, .get [] [2] 8 true])
        ((OnDemand.unallocated.machine fun _ => 7).answers (some b₀)
          [.set none [1] v 7, .set none [2] v 8, .get [] [1] 7 true, .get [] [2] 8 true]) := by
  have hinit : Bucket.init 1 = .ok _ := rfl
  obtain ⟨v, hv⟩ : ∃ v : List UInt8, v.length = 600 :=
    ⟨List.replicate 600 5, List.length_replicate⟩
  refine ⟨_, v, hinit, hv, ?_⟩
  exact same_answers (fun _ => 7) hinit _ (by simp [Call.Supplied, Call.Mapped])

end Cache

end MerkleService
