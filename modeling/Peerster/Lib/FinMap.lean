import Mathlib.Algebra.BigOperators.Group.Finset.Basic
import Mathlib.Data.List.Sort

/-!
# Finite maps

A `FinMap K V` is a lookup function together with the finite set of keys it is defined on, tied
to the lookup by a field.  Two maps with the same lookup are equal (`FinMap.ext`), so a statement
"the map is unchanged" is a plain equality, and `get` lemmas decide every question about it.

A map has no order of its own.  A loop over the entries of a map is therefore a function of an
enumeration of its keys: `FinMap.RangeOrder` picks one enumeration for every map, and a result
that holds for every `RangeOrder` holds for every iteration order.
-/

universe u v

/-- A map with finitely many keys. -/
structure FinMap (K : Type u) (V : Type v) where
  get : K → Option V
  keys : Finset K
  mem_keys : ∀ k, k ∈ keys ↔ (get k).isSome

namespace FinMap

variable {K : Type u} {V : Type v}

theorem ext {m m' : FinMap K V} (h : ∀ k, m.get k = m'.get k) : m = m' := by
  obtain ⟨get, keys, mem⟩ := m
  obtain ⟨get', keys', mem'⟩ := m'
  have hget : get = get' := funext h
  subst hget
  have hkeys : keys = keys' := by
    ext k
    rw [mem, mem']
  subst hkeys
  rfl

theorem mem_keys_of_get {m : FinMap K V} {k : K} {v : V} (h : m.get k = some v) :
    k ∈ m.keys := by
  rw [m.mem_keys, h]
  rfl

theorem get_eq_none {m : FinMap K V} {k : K} : m.get k = none ↔ k ∉ m.keys := by
  rw [m.mem_keys, Option.not_isSome_iff_eq_none]

/-! ## Operations -/

/-- The map with no entry. -/
def empty : FinMap K V := ⟨fun _ => none, ∅, by simp⟩

instance : Inhabited (FinMap K V) := ⟨empty⟩

/-- Whether a key has an entry. -/
def exists? (m : FinMap K V) (k : K) : Bool := (m.get k).isSome

/-- The number of entries. -/
def size (m : FinMap K V) : Nat := m.keys.card

/-! ## Iteration -/

/-- An iteration order for every map: each map's keys, every one exactly once. -/
structure RangeOrder (K : Type u) (V : Type v) where
  list : FinMap K V → List K
  nodup : ∀ m, (list m).Nodup
  mem : ∀ m k, k ∈ list m ↔ k ∈ m.keys

section Sorted

variable [LE K] [DecidableLE K] [Std.IsLinearOrder K]

theorem insertionSort_eq_of_perm {l l' : List K} (perm : l.Perm l') :
    l.insertionSort (· ≤ ·) = l'.insertionSort (· ≤ ·) := by
  have : Std.Total (fun a b : K => a ≤ b) := ⟨fun _ _ => Std.le_total⟩
  have : IsTrans K (fun a b => a ≤ b) := ⟨fun _ _ _ => Std.le_trans⟩
  refine List.Perm.eq_of_pairwise (fun _ _ _ _ => Std.le_antisymm)
    (List.pairwise_insertionSort _ l) (List.pairwise_insertionSort _ l') ?_
  exact (List.perm_insertionSort _ l).trans (perm.trans (List.perm_insertionSort _ l').symm)

/-- The iteration in increasing order of the keys. -/
def RangeOrder.sorted : RangeOrder K V where
  list m := Quot.liftOn m.keys.val (List.insertionSort (· ≤ ·))
    fun _ _ perm => insertionSort_eq_of_perm perm
  nodup m := by
    obtain ⟨get, ⟨⟨l⟩, nodup⟩, mem⟩ := m
    exact ((List.perm_insertionSort (· ≤ ·) l).nodup_iff).mpr nodup
  mem m k := by
    obtain ⟨get, ⟨⟨l⟩, nodup⟩, mem⟩ := m
    exact (List.perm_insertionSort (· ≤ ·) l).mem_iff

end Sorted

/-- The values of a map in the order of an iteration. -/
def values (order : RangeOrder K V) (m : FinMap K V) : List V := (order.list m).filterMap m.get

theorem mem_values {order : RangeOrder K V} {m : FinMap K V} {v : V} :
    v ∈ values order m ↔ ∃ k, m.get k = some v := by
  simp only [values, List.mem_filterMap, order.mem]
  exact ⟨fun ⟨k, _, h⟩ => ⟨k, h⟩, fun ⟨k, h⟩ => ⟨k, mem_keys_of_get h, h⟩⟩

/-- Where every value is under the key that `f` computes from it, the values come in the order of
their keys. -/
theorem map_values {f : V → K} {m : FinMap K V} (keyed : ∀ k v, m.get k = some v → f v = k)
    (order : RangeOrder K V) : (values order m).map f = order.list m := by
  have same : ∀ k ∈ order.list m, (m.get k).map f = some k := by
    intro k mem
    obtain ⟨v, found⟩ := Option.isSome_iff_exists.mp ((m.mem_keys k).mp ((order.mem m k).mp mem))
    rw [found, Option.map_some, keyed k v found]
  rw [values, List.map_filterMap, List.filterMap_congr same, List.filterMap_some]

/-- An iteration visits as many keys as there are entries. -/
theorem length_list [DecidableEq K] (order : RangeOrder K V) (m : FinMap K V) :
    (order.list m).length = m.size := by
  rw [size, ← List.toFinset_card_of_nodup (order.nodup m)]
  congr 1
  ext k
  rw [List.mem_toFinset, order.mem]

/-! ## Insertion and deletion -/

variable [DecidableEq K]

/-- Insert or overwrite one entry. -/
def add (m : FinMap K V) (k : K) (v : V) : FinMap K V where
  get k' := if k' = k then some v else m.get k'
  keys := insert k m.keys
  mem_keys k' := by
    by_cases h : k' = k
    · simp [h]
    · simp [h, m.mem_keys]

/-- Delete one entry. -/
def remove (m : FinMap K V) (k : K) : FinMap K V where
  get k' := if k' = k then none else m.get k'
  keys := m.keys.erase k
  mem_keys k' := by
    by_cases h : k' = k
    · simp [h]
    · simp [h, m.mem_keys]

theorem get_add (m : FinMap K V) (k k' : K) (v : V) :
    (m.add k v).get k' = if k' = k then some v else m.get k' := rfl

@[simp] theorem get_add_self (m : FinMap K V) (k : K) (v : V) : (m.add k v).get k = some v := by
  simp [get_add]

theorem get_add_of_ne (m : FinMap K V) {k k' : K} (v : V) (h : k' ≠ k) :
    (m.add k v).get k' = m.get k' := by
  simp [get_add, h]

theorem get_remove (m : FinMap K V) (k k' : K) :
    (m.remove k).get k' = if k' = k then none else m.get k' := rfl

theorem get_remove_of_ne (m : FinMap K V) {k k' : K} (h : k' ≠ k) :
    (m.remove k).get k' = m.get k' := by
  simp [get_remove, h]

theorem remove_add_self (m : FinMap K V) (k : K) (v : V) :
    (m.add k v).remove k = m.remove k := by
  refine ext fun k' => ?_
  simp only [get_remove, get_add]
  split <;> simp_all

/-! ## Sums over the values -/

section Sum

variable {M : Type*} [AddCommMonoid M]

/-- The sum of `f` over the values of a map. -/
def sum (m : FinMap K V) (f : V → M) : M := ∑ k ∈ m.keys, ((m.get k).map f).getD 0

omit [DecidableEq K] in
@[simp] theorem sum_empty (f : V → M) : (empty : FinMap K V).sum f = 0 := rfl

/-- The sum splits at one key, whether it is present or not. -/
theorem sum_eq_getD_add_sum_remove (m : FinMap K V) (k : K) (f : V → M) :
    m.sum f = ((m.get k).map f).getD 0 + (m.remove k).sum f := by
  have hrest : (m.remove k).sum f = ∑ k' ∈ m.keys.erase k, ((m.get k').map f).getD 0 := by
    refine Finset.sum_congr rfl fun k' hk' => ?_
    rw [get_remove_of_ne m (Finset.ne_of_mem_erase hk')]
  rw [hrest]
  by_cases hk : k ∈ m.keys
  · exact (Finset.add_sum_erase m.keys _ hk).symm
  · rw [Finset.erase_eq_of_notMem hk, get_eq_none.mpr hk]
    simp [sum]

theorem sum_add (m : FinMap K V) (k : K) (v : V) (f : V → M) :
    (m.add k v).sum f = f v + (m.remove k).sum f := by
  rw [sum_eq_getD_add_sum_remove _ k, get_add_self, remove_add_self]
  rfl

end Sum

end FinMap
