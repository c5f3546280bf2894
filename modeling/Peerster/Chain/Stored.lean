import Peerster.Chain.Node

/-!
# The blockchain store over a run

A block is appended when it is applied without error (`appended`); every other step leaves the store
and the height alone.  Appending changes the store under two keys, the hex of the block's hash and
`LastBlockKey`.  A hash of 32 zero bytes makes them one key, and then the block itself is lost.
-/

namespace Peerster

theorem hexEncode_eq_lastBlockKey_iff {hash : Bytes} :
    hexEncode hash = lastBlockKey ↔ hash = List.replicate 32 0 := by
  have zeros : hexEncode (List.replicate 32 0) = lastBlockKey := by decide +kernel
  constructor
  · intro same
    exact hexEncode_injective (same.trans zeros.symm)
  · intro same
    rw [same, zeros]

theorem blockAt_congr {lib : Stdlib} {s s' : Store} {key : GoString}
    (same : s'.get key = s.get key) :
    blockAt lib s' key = blockAt lib s key := by
  simp only [blockAt, same]

/-- Under a key that holds data, the walk finds what the data decodes to. -/
theorem blockAt_of_data {lib : Stdlib} {s : Store} {key : GoString} {data : Bytes}
    (stored : s.data.get key = some data) (filled : data ≠ []) :
    blockAt lib s key = lib.unmarshalBlock data := by
  unfold blockAt
  rw [Store.get_of_data stored filled]
  cases data with
  | nil => exact (filled rfl).elim
  | cons byte bytes => rfl

theorem blockAt_of_empty {lib : Stdlib} {s : Store} {key : GoString}
    (stored : s.data.get key = some []) : blockAt lib s key = none := by
  unfold blockAt
  split
  · rfl
  · rfl
  · next found =>
    rw [Store.data_of_get found] at stored
    cases stored

namespace Node

section Store

variable {lib : Stdlib} {s : Store} {block : Block} {key : GoString}

theorem storeBlock_backend (lib : Stdlib) (s : Store) (block : Block) :
    (storeBlock lib s block).backend = s.backend := by
  simp only [storeBlock, Store.set_backend]

theorem storeBlock_data_last (lib : Stdlib) (s : Store) (block : Block) :
    (storeBlock lib s block).data.get lastBlockKey = some block.hash :=
  Store.set_data_get_self (takes_lastBlockKey _) _

theorem storeBlock_data_of_ne (off : key ≠ hexEncode block.hash) (off' : key ≠ lastBlockKey) :
    (storeBlock lib s block).data.get key = s.data.get key := by
  unfold storeBlock
  rw [Store.set_data_get_of_ne off', Store.set_data_get_of_ne off]

theorem storeBlock_data_self (lib : Stdlib) (fits : s.takes (hexEncode block.hash) = true)
    (off : hexEncode block.hash ≠ lastBlockKey) :
    (storeBlock lib s block).data.get (hexEncode block.hash) =
      some ((lib.marshalBlock block).getD []) := by
  unfold storeBlock
  rw [Store.set_data_get_of_ne off, Store.set_data_get_self fits]

/-- A key the store does not take stays as it was. -/
theorem storeBlock_data_refused (lib : Stdlib) (refused : s.takes (hexEncode block.hash) ≠ true)
    (off : key ≠ lastBlockKey) : (storeBlock lib s block).data.get key = s.data.get key := by
  unfold storeBlock
  rw [Store.set_data_get_of_ne off, Store.set, if_neg refused]

theorem blockAt_storeBlock_of_ne (off : key ≠ hexEncode block.hash) (off' : key ≠ lastBlockKey) :
    blockAt lib (storeBlock lib s block) key = blockAt lib s key :=
  blockAt_congr (Store.get_congr (storeBlock_backend lib s block) (storeBlock_data_of_ne off off'))

theorem storeBlock_get_last (filled : block.hash ≠ []) :
    (storeBlock lib s block).get lastBlockKey = some block.hash :=
  Store.get_of_data (storeBlock_data_last lib s block) filled

end Store

/-- The block an event appends to the chain: one that is applied without error. -/
def appended (lib : Stdlib) (n : Node) (e : Event) : Option Block :=
  match n.applied lib e with
  | none => none
  | some (order, block) =>
      if (applyBlock order n.utxoSet block).2 = none then some block else none

/-- The blocks appended in a run, in order. -/
def appendedBlocks (lib : Stdlib) (n : Node) (es : List Event) : List Block :=
  Run.collect (step lib) (fun n e => (n.appended lib e).toList) n es

theorem appended_eq_some_iff {lib : Stdlib} {n : Node} {e : Event} {block : Block} :
    n.appended lib e = some block ↔
      ∃ order, n.applied lib e = some (order, block) ∧
        (applyBlock order n.utxoSet block).2 = none := by
  unfold appended
  cases n.applied lib e with
  | none => simp
  | some call =>
      obtain ⟨order, block'⟩ := call
      simp only [Option.ite_none_right_eq_some, Option.some.injEq, Prod.mk.injEq]
      constructor
      · intro result
        obtain ⟨ok, rfl⟩ := result
        exact ⟨order, ⟨rfl, rfl⟩, ok⟩
      · intro result
        obtain ⟨_, ⟨rfl, rfl⟩, ok⟩ := result
        exact ⟨ok, rfl⟩

/-- The part of a node that a block is appended to: the blockchain store and the height. -/
def chain (n : Node) : Store × Nat := (n.bcStore, n.currentHeight)

theorem addBlockToBlockchain_chain (lib : Stdlib) (order : UTXOOrder) (n : Node) (block : Block) :
    (addBlockToBlockchain lib order n block).1.chain =
      if (applyBlock order n.utxoSet block).2 = none then
        (storeBlock lib n.bcStore block, n.currentHeight + 1)
      else n.chain := by
  unfold addBlockToBlockchain
  cases applyBlock order n.utxoSet block with
  | mk utxoSet failed =>
      cases failed with
      | some err => simp [chain]
      | none =>
          dsimp only
          split <;> rfl

/-- The store and the height change only when a block is appended. -/
theorem step_chain (lib : Stdlib) (n : Node) (e : Event) :
    (n.step lib e).chain =
      match n.appended lib e with
      | none => n.chain
      | some block => (storeBlock lib n.bcStore block, n.currentHeight + 1) := by
  have changed := congrArg Prod.snd (step_transition lib n e).ledger_eq
  unfold appended
  cases applies : n.applied lib e with
  | none =>
      rw [applies] at changed
      exact changed
  | some call =>
      rw [applies] at changed
      refine (changed.trans (addBlockToBlockchain_chain lib call.1 n call.2)).trans ?_
      dsimp only
      split <;> rfl

theorem step_bcStore (lib : Stdlib) (n : Node) (e : Event) :
    (n.step lib e).bcStore =
      match n.appended lib e with
      | none => n.bcStore
      | some block => storeBlock lib n.bcStore block := by
  have changed := congrArg Prod.fst (step_chain lib n e)
  cases appends : n.appended lib e with
  | none =>
      rw [appends] at changed
      exact changed
  | some block =>
      rw [appends] at changed
      exact changed

/-- The genesis block is appended to the store a node starts on. -/
theorem start_chain (lib : Stdlib) (order : UTXOOrder) (bcStore : Store) :
    (start lib order (newPeer bcStore)).chain = (storeBlock lib bcStore (genesisBlock lib), 1) := by
  have effect := addBlockToBlockchain_chain lib order (newPeer bcStore) (genesisBlock lib)
  have ok : (applyBlock order (newPeer bcStore).utxoSet (genesisBlock lib)).2 = none := rfl
  rw [if_pos ok] at effect
  unfold start
  split <;> next eq => rw [eq] at effect; exact effect

theorem start_bcStore (lib : Stdlib) (order : UTXOOrder) (bcStore : Store) :
    (start lib order (newPeer bcStore)).bcStore = storeBlock lib bcStore (genesisBlock lib) :=
  congrArg Prod.fst (start_chain lib order bcStore)

end Node

end Peerster
