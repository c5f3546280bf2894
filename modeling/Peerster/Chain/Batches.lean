import Peerster.Chain.Mempool

/-!
# Batches of the mempool

`getTxsFromMempool` takes a batch out of an iteration over the mempool, and `removeTxsFromMempool`
takes the entries of a batch away.  Where every transaction is under its own ID, which is so in
every reachable state (`Node.afterEvents_batched`), the two split the mempool
(`batch_partitions`).
-/

namespace Peerster

/-- Every transaction of the mempool is under its own ID. -/
def KeyedByID (mempool : Mempool) : Prop :=
  ∀ id t, mempool.get id = some t → t.id = id

theorem keyedByID_empty : KeyedByID .empty := by
  intro id t found
  cases found

theorem KeyedByID.add {mempool : Mempool} (keyed : KeyedByID mempool) (tx : Transaction) :
    KeyedByID (mempool.add tx.id tx) := by
  intro id t found
  rw [FinMap.get_add] at found
  split at found
  · next here =>
    cases found
    exact here.symm
  · exact keyed id t found

theorem KeyedByID.remove {mempool : Mempool} (keyed : KeyedByID mempool) (order : TxOrder)
    (txs : List Transaction) : KeyedByID (removeTxsFromMempool order mempool txs) :=
  fun id t found => keyed id t (get_of_get_removeTxsFromMempool found)

/-! ## One batch -/

/-- From a count below the limit on, the loop takes what is left up to the limit. -/
theorem takeTxs_eq {limit count : Nat} (below : count < limit) (txs : List Transaction) :
    takeTxs limit count txs = txs.take (limit - count) := by
  induction txs generalizing count with
  | nil => rw [takeTxs, List.take_nil]
  | cons tx txs ih =>
      have left : limit - count = limit - (count + 1) + 1 := by omega
      rw [takeTxs, left, List.take_succ_cons]
      split
      · next full =>
        rw [Nat.sub_eq_zero_of_le full, List.take_zero]
      · next more =>
        rw [ih (by omega)]

section Batch

variable {mempool : Mempool} {limit : Nat}

/-- The IDs of a batch are different. -/
theorem KeyedByID.nodup_ids (keyed : KeyedByID mempool) (order : TxOrder) (limit : Nat) :
    ((getTxsFromMempool order mempool limit).map Transaction.id).Nodup := by
  have taken := (takeTxs_sublist limit 0 (FinMap.values order mempool)).map Transaction.id
  rw [FinMap.map_values keyed] at taken
  exact (order.nodup mempool).sublist taken

theorem KeyedByID.length_batch (keyed : KeyedByID mempool) (order : TxOrder)
    (positive : 1 ≤ limit) :
    (getTxsFromMempool order mempool limit).length = min limit mempool.size := by
  have all := congrArg List.length (FinMap.map_values keyed order)
  rw [List.length_map, FinMap.length_list] at all
  rw [getTxsFromMempool, takeTxs_eq positive, List.length_take, all, Nat.sub_zero]

/-- A transaction of a batch is in the mempool, under its ID. -/
theorem KeyedByID.get_of_mem_batch (keyed : KeyedByID mempool) {order : TxOrder} {t : Transaction}
    (mem : t ∈ getTxsFromMempool order mempool limit) : mempool.get t.id = some t := by
  obtain ⟨id, found⟩ := exists_get_of_mem_getTxsFromMempool mem
  rw [keyed id t found]
  exact found

/-- Removing transactions of the mempool leaves the others. -/
theorem KeyedByID.get_remove_eq_some_iff (keyed : KeyedByID mempool) (order : TxOrder)
    {txs : List Transaction} (held : ∀ t ∈ txs, mempool.get t.id = some t) (id : GoString)
    (t : Transaction) :
    (removeTxsFromMempool order mempool txs).get id = some t ↔
      mempool.get id = some t ∧ t ∉ txs := by
  rw [get_removeTxsFromMempool]
  constructor
  · intro kept
    split at kept
    · cases kept
    · next other =>
      refine ⟨kept, fun mem => other ?_⟩
      rw [List.contains_iff_mem, ← keyed id t kept]
      exact List.mem_map_of_mem mem
  · rintro ⟨found, other⟩
    rw [if_neg, found]
    intro removed
    obtain ⟨t', mem, same⟩ := List.mem_map.mp (List.contains_iff_mem.mp removed)
    have found' := held t' mem
    rw [same, found] at found'
    exact other (Option.some.inj found' ▸ mem)

/-- **Batches split the mempool.**  Where every transaction is under its own ID, a batch has as many
transactions as the limit allows and the mempool has, all different and all of the mempool; removing
the batch leaves the others as they are.  Removing any list of transactions removes the entries
whose key is the ID of one of them, and no others.  The two loops may each have their own iteration
order. -/
theorem batch_partitions (order order' : TxOrder) (keyed : KeyedByID mempool)
    (positive : 1 ≤ limit) :
    let batch := getTxsFromMempool order mempool limit
    batch.length = min limit mempool.size ∧ batch.Nodup ∧
      (∀ t ∈ batch, mempool.get t.id = some t) ∧
      (∀ id t, (removeTxsFromMempool order' mempool batch).get id = some t ↔
        mempool.get id = some t ∧ t ∉ batch) ∧
      ∀ (txs : List Transaction) (id : GoString),
        (removeTxsFromMempool order' mempool txs).get id =
          if id ∈ txs.map Transaction.id then none else mempool.get id := by
  intro batch
  have held : ∀ t ∈ batch, mempool.get t.id = some t := fun _ mem => keyed.get_of_mem_batch mem
  refine ⟨keyed.length_batch order positive, (keyed.nodup_ids order limit).of_map _, held,
    keyed.get_remove_eq_some_iff order' held, fun txs id => ?_⟩
  rw [get_removeTxsFromMempool]
  simp only [List.contains_iff_mem]

end Batch

theorem partitions_of_two_claims :
    let mempool : Mempool := (FinMap.empty.add claim1.id claim1).add claim2.id claim2
    let batch := getTxsFromMempool .sorted mempool 1
    batch.length = min 1 mempool.size ∧ batch.Nodup ∧
      (∀ t ∈ batch, mempool.get t.id = some t) ∧
      (∀ id t, (removeTxsFromMempool .sorted mempool batch).get id = some t ↔
        mempool.get id = some t ∧ t ∉ batch) ∧
      ∀ (txs : List Transaction) (id : GoString),
        (removeTxsFromMempool .sorted mempool txs).get id =
          if id ∈ txs.map Transaction.id then none else mempool.get id :=
  batch_partitions .sorted .sorted ((keyedByID_empty.add claim1).add claim2) (by decide)

/-! ## Every run -/

namespace Node

/-- The transactions of the mempool are under their IDs, and those of the candidate have different
ones. -/
structure Batched (n : Node) : Prop where
  keyed : KeyedByID n.mempool
  distinct : ∀ candidate, n.mining = some candidate →
    (candidate.transactions.map Transaction.id).Nodup

theorem Batched.step {lib : Stdlib} {n : Node} (batched : n.Batched) (e : Event) :
    (n.step lib e).Batched := by
  refine ⟨?_, fun candidate inProgress => ?_⟩
  · rcases (step_transition lib n e).mempool_eq with
      ⟨same, -, -⟩ | ⟨tx, -, -, added⟩ | ⟨order, block, -, -, removed⟩
    · rw [same]
      exact batched.keyed
    · rw [added]
      exact batched.keyed.add tx
    · rw [removed]
      exact batched.keyed.remove order block.transactions
  · rcases step_mining inProgress with ⟨before, -⟩ | ⟨amb, -, -, rfl⟩
    · exact batched.distinct candidate before
    · exact batched.keyed.nodup_ids amb.txOrder n.maxTxPerBlock

/-- In every reachable state transactions wait under their IDs, and no candidate has two
transactions of one ID. -/
theorem afterEvents_batched (lib : Stdlib) (order : UTXOOrder) (bcStore : Store)
    (es : List Event) : (afterEvents lib order bcStore es).Batched := by
  refine Run.run_invariant (I := Batched) ⟨?_, ?_⟩ (fun n e batched => batched.step e) es
  · rw [start_mempool]
    exact keyedByID_empty
  · intro candidate inProgress
    rw [start_mining] at inProgress
    cases inProgress

end Node

end Peerster
