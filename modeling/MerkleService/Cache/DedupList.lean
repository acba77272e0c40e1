import MerkleService.Cache.DedupCache
import MerkleService.Data.Recency
import Mathlib.Data.List.AList

/-!
# The map and the list of the cache of processed messages

`DedupCache` of `internal/cache/dedup_cache.go` keeps a map `items` from keys to the elements of a
doubly linked list `eviction`, whose back is evicted.  Here an element of the list has a pointer,
as in `container/list`, and the map holds pointers.

* `Linked` : the map and the list hold the same keys, and every map entry points to the element of
  its own key.
* `represents_add` : `Add` keeps that, and does what the list of keys of `DedupCache` does.
* `remembers_recent` : **the cache remembers exactly the most recent keys**, after any sequence of
  calls.
-/

namespace MerkleService

namespace Cache

open Recency

/-! ### `container/list` -/

/-- `list.Element`, with its pointer. -/
structure Element where
  ptr : ℕ
  value : String
  deriving DecidableEq

/-- `list.List`, from front to back. -/
structure EvictionList where
  elements : List Element
  /-- The pointer of the next element to be allocated. -/
  next : ℕ

namespace EvictionList

/-- `list.New`. -/
def new : EvictionList := ⟨[], 0⟩

/-- `Len`. -/
def len (l : EvictionList) : ℕ := l.elements.length

/-- `Back`. -/
def back (l : EvictionList) : Option Element := l.elements.getLast?

/-- `Remove`: nothing happens when the element is not one of the list. -/
def remove (l : EvictionList) (ptr : ℕ) : EvictionList :=
  { l with elements := l.elements.filter (·.ptr != ptr) }

/-- `MoveToFront`: nothing happens when the element is not one of the list. -/
def moveToFront (l : EvictionList) (ptr : ℕ) : EvictionList :=
  match l.elements.find? (·.ptr == ptr) with
  | none => l
  | some elem => { l with elements := elem :: l.elements.filter (·.ptr != ptr) }

/-- `PushFront`: the list, and the pointer of the new element. -/
def pushFront (l : EvictionList) (value : String) : EvictionList × ℕ :=
  (⟨⟨l.next, value⟩ :: l.elements, l.next + 1⟩, l.next)

end EvictionList

/-! ### The cache -/

/-- `DedupCache`, as the source has it. -/
structure LinkedCache where
  maxSize : ℕ
  items : AList fun _ : String => ℕ
  eviction : EvictionList

namespace LinkedCache

/-- `NewDedupCache`. -/
def newDedupCache (maxSize : ℤ) : LinkedCache where
  maxSize := if maxSize ≤ 0 then 1 else maxSize.toNat
  items := ∅
  eviction := .new

/-- The loop that makes room, for at most `fuel` iterations. -/
def evict : ℕ → LinkedCache → LinkedCache
  | 0, c => c
  | fuel + 1, c =>
    if c.maxSize ≤ c.eviction.len then
      match c.eviction.back with
      | none => c
      | some back =>
        evict fuel { c with
          eviction := c.eviction.remove back.ptr
          items := c.items.erase back.value }
    else c

/-- `Add`; every iteration of the loop removes an element. -/
def add (c : LinkedCache) (key : String) : LinkedCache × Bool :=
  match c.items.lookup key with
  | some elem => ({ c with eviction := c.eviction.moveToFront elem }, false)
  | none =>
    let c := evict c.eviction.len c
    let (eviction, elem) := c.eviction.pushFront key
    ({ c with eviction := eviction, items := c.items.insert key elem }, true)

/-- `Contains`. -/
def contains (c : LinkedCache) (key : String) : Bool := (c.items.lookup key).isSome

/-- `Len`. -/
def len (c : LinkedCache) : ℕ := c.items.entries.length

/-- The keys of the list, from front to back. -/
def keys (c : LinkedCache) : List String := c.eviction.elements.map Element.value

/-- The map and the list hold the same keys, each once, and every map entry points to the list
element of its own key. -/
structure Linked (c : LinkedCache) : Prop where
  keys_nodup : c.keys.Nodup
  ptrs_nodup : (c.eviction.elements.map Element.ptr).Nodup
  allocated : ∀ e ∈ c.eviction.elements, e.ptr < c.eviction.next
  lookup_iff : ∀ k p, c.items.lookup k = some p ↔ (⟨p, k⟩ : Element) ∈ c.eviction.elements

namespace Linked

variable {c : LinkedCache} (h : c.Linked)

include h

theorem mem_keys_iff {k : String} : k ∈ c.keys ↔ (c.items.lookup k).isSome = true := by
  rw [Option.isSome_iff_exists, keys, List.mem_map]
  constructor
  · rintro ⟨e, he, rfl⟩
    exact ⟨e.ptr, (h.lookup_iff _ _).2 he⟩
  · rintro ⟨p, hp⟩
    exact ⟨_, (h.lookup_iff _ _).1 hp, rfl⟩

theorem keys_perm : c.items.keys.Perm c.keys := by
  refine (List.perm_ext_iff_of_nodup c.items.keys_nodup h.keys_nodup).2 fun k => ?_
  rw [← AList.mem_keys, ← AList.lookup_isSome, h.mem_keys_iff]

theorem eq_of_ptr {e e' : Element} (he : e ∈ c.eviction.elements) (he' : e' ∈ c.eviction.elements)
    (hptr : e.ptr = e'.ptr) : e = e' :=
  List.inj_on_of_nodup_map h.ptrs_nodup he he' hptr

theorem find?_ptr {k : String} {p : ℕ} (hk : c.items.lookup k = some p) :
    c.eviction.elements.find? (·.ptr == p) = some ⟨p, k⟩ := by
  have hmem := (h.lookup_iff k p).1 hk
  cases hfind : c.eviction.elements.find? (·.ptr == p) with
  | none => exact absurd (List.find?_eq_none.1 hfind _ hmem) (by simp)
  | some e =>
    have hptr : e.ptr = p := by simpa using List.find?_some hfind
    rw [h.eq_of_ptr (List.mem_of_find?_eq_some hfind) hmem hptr]

theorem ptr_eq_iff {k : String} {p : ℕ} (hk : c.items.lookup k = some p) {e : Element}
    (he : e ∈ c.eviction.elements) : e.ptr = p ↔ e.value = k := by
  have hmem := (h.lookup_iff k p).1 hk
  constructor
  · intro hptr
    exact congrArg Element.value (h.eq_of_ptr he hmem hptr)
  · intro hval
    exact congrArg Element.ptr (List.inj_on_of_nodup_map h.keys_nodup he hmem hval)

theorem map_value_filter {k : String} {p : ℕ} (hk : c.items.lookup k = some p) :
    (c.eviction.elements.filter (·.ptr != p)).map Element.value = c.keys.erase k := by
  rw [h.keys_nodup.erase_eq_filter, keys, List.filter_map]
  congr 1
  refine List.filter_congr fun e he => ?_
  rw [Function.comp_apply, Bool.eq_iff_iff, bne_iff_ne, bne_iff_ne, not_iff_not]
  exact h.ptr_eq_iff hk he

theorem mem_filter_ptr {k : String} {p : ℕ} (hk : c.items.lookup k = some p) {e : Element} :
    e ∈ c.eviction.elements.filter (·.ptr != p) ↔ e ∈ c.eviction.elements ∧ e.value ≠ k := by
  rw [List.mem_filter, bne_iff_ne]
  exact and_congr_right fun he => not_congr (h.ptr_eq_iff hk he)

theorem moveToFront {k : String} {p : ℕ} (hk : c.items.lookup k = some p) :
    Linked { c with eviction := c.eviction.moveToFront p } ∧
      keys { c with eviction := c.eviction.moveToFront p } = k :: c.keys.erase k := by
  have hmem := (h.lookup_iff k p).1 hk
  have helems : (c.eviction.moveToFront p).elements =
      ⟨p, k⟩ :: c.eviction.elements.filter (·.ptr != p) := by
    rw [EvictionList.moveToFront, h.find?_ptr hk]
  have hnext : (c.eviction.moveToFront p).next = c.eviction.next := by
    rw [EvictionList.moveToFront, h.find?_ptr hk]
  have hkeys : keys { c with eviction := c.eviction.moveToFront p } = k :: c.keys.erase k := by
    rw [keys, helems, List.map_cons, h.map_value_filter hk]
  have hiff : ∀ e : Element, e ∈ (c.eviction.moveToFront p).elements ↔
      e ∈ c.eviction.elements := by
    intro e
    rw [helems, List.mem_cons, h.mem_filter_ptr hk]
    constructor
    · rintro (rfl | ⟨he, -⟩)
      · exact hmem
      · exact he
    · intro he
      by_cases hval : e.value = k
      · exact .inl (List.inj_on_of_nodup_map h.keys_nodup he hmem hval)
      · exact .inr ⟨he, hval⟩
  refine ⟨⟨?_, ?_, ?_, ?_⟩, hkeys⟩
  · rw [hkeys]
    exact List.nodup_cons.2 ⟨h.keys_nodup.not_mem_erase, h.keys_nodup.erase k⟩
  · rw [helems, List.map_cons]
    refine List.nodup_cons.2 ⟨?_, h.ptrs_nodup.sublist (List.filter_sublist.map _)⟩
    simp
  · intro e he
    rw [hnext]
    exact h.allocated e ((hiff e).1 he)
  · intro k' p'
    exact (h.lookup_iff k' p').trans (hiff _).symm

theorem remove_back {e : Element} {es : List Element} (hes : c.eviction.elements = es ++ [e]) :
    Linked { c with
      eviction := c.eviction.remove e.ptr
      items := c.items.erase e.value } ∧ (c.eviction.remove e.ptr).elements = es := by
  have hk : c.items.lookup e.value = some e.ptr := by
    rw [h.lookup_iff, hes]
    simp
  have hkeys := h.map_value_filter hk
  have helems : (c.eviction.remove e.ptr).elements = es := by
    have hptrs := h.ptrs_nodup
    rw [hes, List.map_append, List.nodup_append] at hptrs
    rw [EvictionList.remove, hes, List.filter_append]
    have hes' : es.filter (·.ptr != e.ptr) = es := by
      refine List.filter_eq_self.2 fun e' he' => bne_iff_ne.2 ?_
      exact hptrs.2.2 _ (List.mem_map_of_mem he') _ (by simp)
    simp [hes']
  refine ⟨⟨?_, ?_, ?_, ?_⟩, helems⟩
  · rw [keys, EvictionList.remove, hkeys]
    exact h.keys_nodup.erase _
  · exact h.ptrs_nodup.sublist (List.filter_sublist.map _)
  · intro e' he'
    exact h.allocated e' (List.mem_of_mem_filter he')
  · intro k' p'
    rw [EvictionList.remove, h.mem_filter_ptr hk, ← h.lookup_iff]
    by_cases hval : k' = e.value
    · subst hval
      simp
    · simp [hval]

theorem pushFront {k : String} (hk : c.items.lookup k = none) :
    Linked { c with
      eviction := (c.eviction.pushFront k).1
      items := c.items.insert k (c.eviction.pushFront k).2 } := by
  have hnot : k ∉ c.keys := by
    rw [h.mem_keys_iff, hk]
    exact Bool.false_ne_true
  have hfresh : ∀ e ∈ c.eviction.elements, e.ptr ≠ c.eviction.next :=
    fun e he => (h.allocated e he).ne
  refine ⟨?_, ?_, ?_, ?_⟩
  · exact List.nodup_cons.2 ⟨hnot, h.keys_nodup⟩
  · refine List.nodup_cons.2 ⟨?_, h.ptrs_nodup⟩
    rintro hmem
    obtain ⟨e, he, hptr⟩ := List.mem_map.1 hmem
    exact hfresh e he hptr
  · intro e he
    rcases List.mem_cons.1 he with rfl | he
    · exact Nat.lt_succ_self _
    · exact (h.allocated e he).trans (Nat.lt_succ_self _)
  · intro k' p'
    simp only [EvictionList.pushFront, List.mem_cons, ← h.lookup_iff, Element.mk.injEq]
    by_cases hval : k' = k
    · subst hval
      simp [hk, eq_comm]
    · simp [hval, AList.lookup_insert_ne hval]

/-- The loop ends with room for one more key, having taken the oldest keys out. -/
theorem evict (hpos : 0 < c.maxSize) {fuel : ℕ} (hfuel : c.eviction.len ≤ fuel) :
    (c.evict fuel).Linked ∧ (c.evict fuel).keys = c.keys.take (c.maxSize - 1) ∧
      (c.evict fuel).maxSize = c.maxSize := by
  induction fuel generalizing c with
  | zero =>
    have hnil : c.eviction.elements = [] := List.length_eq_zero_iff.1 (Nat.le_zero.1 hfuel)
    exact ⟨h, by simp [LinkedCache.evict, keys, hnil], rfl⟩
  | succ fuel ih =>
    by_cases hroom : c.maxSize ≤ c.eviction.len
    · obtain ⟨es, e, hes⟩ : ∃ es e, c.eviction.elements = es ++ [e] := by
        have hne : c.eviction.elements ≠ [] := by
          intro hnil
          rw [EvictionList.len, hnil, List.length_nil] at hroom
          omega
        exact ⟨_, _, (List.dropLast_append_getLast hne).symm⟩
      have hback : c.eviction.back = some e := by rw [EvictionList.back, hes]; simp
      obtain ⟨hlinked, helems⟩ := h.remove_back hes
      have hlen : c.eviction.len = es.length + 1 := by
        rw [EvictionList.len, hes, List.length_append, List.length_singleton]
      obtain ⟨hl, hkeys, hsize⟩ := ih hlinked hpos (by
        rw [EvictionList.len, helems]
        omega)
      rw [LinkedCache.evict, if_pos hroom, hback]
      refine ⟨hl, ?_, hsize⟩
      rw [hkeys, keys, helems, keys, hes, List.map_append, List.take_append_of_le_length]
      rw [List.length_map]
      omega
    · rw [LinkedCache.evict, if_neg hroom]
      refine ⟨h, ?_, rfl⟩
      rw [List.take_of_length_le]
      rw [keys, List.length_map]
      rw [EvictionList.len] at hroom
      omega

end Linked

/-! ### Over the list of keys -/

/-- The cache of the source and the list of its keys. -/
structure Represents (c : LinkedCache) (d : DedupCache) : Prop where
  linked : c.Linked
  maxSize : c.maxSize = d.maxSize
  keys : c.keys = d.keys

section

variable {c : LinkedCache} {d : DedupCache}

theorem represents_new (maxSize : ℤ) : (newDedupCache maxSize).Represents (.new maxSize) where
  linked :=
    { keys_nodup := List.nodup_nil
      ptrs_nodup := List.nodup_nil
      allocated := List.forall_mem_nil _
      lookup_iff := by simp [newDedupCache, EvictionList.new] }
  maxSize := rfl
  keys := rfl

theorem Represents.contains (h : c.Represents d) (k : String) : c.contains k = d.contains k := by
  rw [LinkedCache.contains, DedupCache.contains, Bool.eq_iff_iff, decide_eq_true_eq, ← h.keys,
    h.linked.mem_keys_iff]

/-- `Add` on the map and the list is `add` on the keys, with the same answer. -/
theorem represents_add (h : c.Represents d) (k : String) :
    (c.add k).1.Represents (d.add k).1 ∧ (c.add k).2 = (d.add k).2 := by
  cases hk : c.items.lookup k with
  | some p =>
    have hin : k ∈ d.keys := by rw [← h.keys, h.linked.mem_keys_iff, hk]; rfl
    obtain ⟨hlinked, hkeys⟩ := h.linked.moveToFront hk
    rw [add, hk, DedupCache.add, dif_pos hin]
    exact ⟨⟨hlinked, h.maxSize, by rw [hkeys, h.keys]⟩, rfl⟩
  | none =>
    have hnot : k ∉ d.keys := by
      rw [← h.keys, h.linked.mem_keys_iff, hk]
      exact Bool.false_ne_true
    obtain ⟨hlinked, hkeys, hsize⟩ :=
      h.linked.evict (by rw [h.maxSize]; exact d.maxSize_pos) (le_refl c.eviction.len)
    have hfree : (c.evict c.eviction.len).items.lookup k = none := by
      rw [← Option.not_isSome_iff_eq_none, ← hlinked.mem_keys_iff, hkeys, h.keys]
      intro hmem
      exact hnot (List.mem_of_mem_take hmem)
    rw [add, hk, DedupCache.add, dif_neg hnot]
    have hevicted : (c.evict c.eviction.len).keys = d.keys.take (d.maxSize - 1) := by
      rw [hkeys, h.keys, h.maxSize]
    exact ⟨⟨hlinked.pushFront hfree, hsize.trans h.maxSize, congrArg (k :: ·) hevicted⟩, rfl⟩

end

/-! ### Sequences of calls -/

/-- The calls. -/
inductive Op where
  | add (key : String)
  | contains (key : String)

/-- The cache after a call, which holds the mutex throughout. -/
def apply (c : LinkedCache) : Op → LinkedCache
  | .add key => (c.add key).1
  | .contains _ => c

/-- The cache after a sequence of calls. -/
def after (maxSize : ℤ) (ops : List Op) : LinkedCache := ops.foldl apply (newDedupCache maxSize)

/-- The keys of the `Add` calls, the latest first. -/
def added (ops : List Op) : List String :=
  (ops.filterMap fun
    | .add key => some key
    | .contains _ => none).reverse

/-- `max(1, maxSize)`. -/
def capacity (maxSize : ℤ) : ℕ := (max 1 maxSize).toNat

theorem maxSize_new (maxSize : ℤ) : (DedupCache.new maxSize).maxSize = capacity maxSize := by
  change (if maxSize ≤ 0 then 1 else maxSize.toNat) = (max 1 maxSize).toNat
  split_ifs with h
  · rw [max_eq_left (by omega), Int.toNat_one]
  · rw [max_eq_right (by omega)]

theorem keys_add_of_recency {d : DedupCache} {h : List String} {k : String}
    (hd : d.keys = (recency h).take d.maxSize) :
    (d.add k).1.keys = (recency (k :: h)).take d.maxSize := by
  by_cases hk : k ∈ d.keys
  · rw [DedupCache.add, dif_pos hk, recency_take_cons_of_mem d.maxSize_pos (hd ▸ hk), ← hd]
  · rw [DedupCache.add, dif_neg hk, recency_take_cons_of_not_mem d.maxSize_pos (hd ▸ hk), ← hd]

theorem maxSize_add (d : DedupCache) (k : String) : (d.add k).1.maxSize = d.maxSize := by
  unfold DedupCache.add
  split_ifs <;> rfl

/-- After any sequence of calls, the list holds the most recent keys in their order. -/
theorem exists_represents (maxSize : ℤ) (ops : List Op) :
    ∃ d, (after maxSize ops).Represents d ∧ d.maxSize = capacity maxSize ∧
      d.keys = (recency (added ops)).take d.maxSize := by
  induction ops using List.reverseRecOn with
  | nil => exact ⟨.new maxSize, represents_new maxSize, maxSize_new maxSize, List.take_nil.symm⟩
  | append_singleton ops op ih =>
    obtain ⟨d, hrep, hsize, hkeys⟩ := ih
    rw [after, List.foldl_append, ← after]
    cases op with
    | add k =>
      refine ⟨(d.add k).1, (represents_add hrep k).1, (maxSize_add d k).trans hsize, ?_⟩
      rw [maxSize_add, keys_add_of_recency hkeys]
      simp [added]
    | contains k =>
      refine ⟨d, hrep, hsize, ?_⟩
      rw [hkeys]
      simp [added]

/-- **The cache remembers exactly the most recent keys.**  After any sequence of calls: the keys it
contains are those whose latest `Add` was followed by additions of fewer than `max(1, maxSize)`
others; the next `Add` answers whether its key is new; and the map and the list hold the same keys,
none twice and at most `max(1, maxSize)`, each map entry pointing to the element of its key. -/
theorem remembers_recent (maxSize : ℤ) (ops : List Op) :
    (∀ k, (after maxSize ops).contains k = true ↔ Recent (capacity maxSize) (added ops) k) ∧
    (∀ k, ((after maxSize ops).add k).2 = true ↔ (after maxSize ops).contains k = false) ∧
    (after maxSize ops).items.keys.Perm (after maxSize ops).keys ∧
    (after maxSize ops).keys.Nodup ∧ (after maxSize ops).keys.length ≤ capacity maxSize ∧
    ∀ k p, (after maxSize ops).items.lookup k = some p →
      (after maxSize ops).eviction.elements.find? (·.ptr == p) = some ⟨p, k⟩ := by
  obtain ⟨d, hrep, hsize, hkeys⟩ := exists_represents maxSize ops
  refine ⟨?_, ?_, hrep.linked.keys_perm, hrep.linked.keys_nodup, ?_,
    fun k p => hrep.linked.find?_ptr⟩
  · intro k
    rw [hrep.contains, DedupCache.contains, decide_eq_true_eq, hkeys, mem_take_recency_iff, hsize]
  · intro k
    rw [(represents_add hrep k).2, hrep.contains, DedupCache.contains, decide_eq_false_iff_not]
    by_cases hk : k ∈ d.keys
    · rw [DedupCache.add, dif_pos hk]
      exact iff_of_false Bool.false_ne_true (not_not_intro hk)
    · rw [DedupCache.add, dif_neg hk]
      exact iff_of_true rfl hk
  · rw [hrep.keys, ← hsize]
    exact d.length_le

end LinkedCache

end Cache

end MerkleService
