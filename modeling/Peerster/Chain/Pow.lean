import Peerster.Chain.Blockchain
import Peerster.Lib.PointerWalk

/-!
# Mempool, mining and the chain walk

`peer/impl/pow.go`.  `mineBlock` polls its stop channels once per attempt, so the number of polls
it is given before one of them fires is an argument.  `PrintAllNonces`, which every successful
`addBlockToBlockchain` calls before it returns, follows `PrevBlockHash` through the store and has
no bound of its own: `printAllNonces` is `none` when it never ends
(`printAllNonces_eq_none_iff`).
-/

namespace Peerster

/-- The mempool, by transaction ID. -/
abbrev Mempool := FinMap GoString Transaction

/-- The order in which loops visit the mempool. -/
abbrev TxOrder := FinMap.RangeOrder GoString Transaction

/-! ## Mempool -/

/-- The loop of `getTxsFromMempool`, which tests its limit after taking a transaction. -/
def takeTxs (limit : Nat) : Nat → List Transaction → List Transaction
  | _, [] => []
  | count, tx :: txs => tx :: if count + 1 ≥ limit then [] else takeTxs limit (count + 1) txs

/-- `getTxsFromMempool`. -/
def getTxsFromMempool (order : TxOrder) (mempool : Mempool) (limit : Nat) : List Transaction :=
  takeTxs limit 0 (FinMap.values order mempool)

/-- `removeTxsFromMempool`. -/
def removeTxsFromMempool (order : TxOrder) (mempool : Mempool) (txs : List Transaction) :
    Mempool :=
  let toRemove := txs.map Transaction.id
  (order.list mempool).foldl
    (fun all id => if toRemove.contains id then all.remove id else all) mempool

theorem takeTxs_sublist (limit count : Nat) (txs : List Transaction) :
    (takeTxs limit count txs).Sublist txs := by
  induction txs generalizing count with
  | nil => exact .slnil
  | cons tx txs ih =>
      unfold takeTxs
      refine .cons_cons tx ?_
      split
      · exact List.nil_sublist txs
      · exact ih (count + 1)

/-- A candidate's transactions come from the mempool. -/
theorem exists_get_of_mem_getTxsFromMempool {order : TxOrder} {mempool : Mempool} {limit : Nat}
    {t : Transaction} (taken : t ∈ getTxsFromMempool order mempool limit) :
    ∃ id, mempool.get id = some t :=
  FinMap.mem_values.mp ((takeTxs_sublist limit 0 _).mem taken)

theorem get_foldl_remove (toRemove ids : List GoString) (mempool : Mempool) (id : GoString) :
    (ids.foldl (fun all id => if toRemove.contains id then all.remove id else all) mempool).get id =
      if ids.contains id && toRemove.contains id then none else mempool.get id := by
  induction ids generalizing mempool with
  | nil => simp
  | cons id' ids ih =>
      simp only [List.foldl_cons, ih, List.contains_cons]
      by_cases here : id = id'
      · subst here
        cases gone : toRemove.contains id with
        | true => simp only [beq_self_eq_true, Bool.true_or, Bool.and_true, if_true,
            FinMap.get_remove, ite_self]
        | false => simp only [Bool.and_false, Bool.false_eq_true, if_false]
      · have other : (id == id') = false := beq_false_of_ne here
        rw [other, Bool.false_or]
        split
        · rfl
        · split
          · exact FinMap.get_remove_of_ne mempool here
          · rfl

/-- Removal deletes the entries of the transactions' IDs and no others. -/
theorem get_removeTxsFromMempool (order : TxOrder) (mempool : Mempool) (txs : List Transaction)
    (id : GoString) :
    (removeTxsFromMempool order mempool txs).get id =
      if (txs.map Transaction.id).contains id then none else mempool.get id := by
  rw [removeTxsFromMempool, get_foldl_remove]
  by_cases present : id ∈ mempool.keys
  · have visited : (order.list mempool).contains id = true :=
      List.contains_iff_mem.mpr ((order.mem mempool id).mpr present)
    rw [visited, Bool.true_and]
  · rw [FinMap.get_eq_none.mpr present, ite_self, ite_self]

/-- Removal adds no transaction. -/
theorem get_of_get_removeTxsFromMempool {order : TxOrder} {mempool : Mempool}
    {txs : List Transaction} {id : GoString} {t : Transaction}
    (kept : (removeTxsFromMempool order mempool txs).get id = some t) :
    mempool.get id = some t := by
  rw [get_removeTxsFromMempool] at kept
  split at kept
  · cases kept
  · exact kept

/-- What stays is what is not removed. -/
theorem keys_removeTxsFromMempool (order : TxOrder) (mempool : Mempool) (txs : List Transaction) :
    (removeTxsFromMempool order mempool txs).keys =
      mempool.keys.filter fun id => ¬ (txs.map Transaction.id).contains id = true := by
  ext id
  rw [FinMap.mem_keys, get_removeTxsFromMempool, Finset.mem_filter, FinMap.mem_keys]
  split
  · next gone => exact iff_of_false Bool.false_ne_true fun both => both.2 gone
  · next stays => exact ⟨fun held => ⟨held, stays⟩, fun both => both.1⟩

/-! ## Mining -/

/-- A big-endian number, as `big.Int.SetBytes` reads it. -/
def setBytes (bytes : Bytes) : Nat := bytes.foldl (fun n b => 256 * n + b.toNat) 0

/-- `meetsTarget`. -/
def meetsTarget (hash : Bytes) (target : Nat) : Bool := setBytes hash ≤ target

/-- `computeTarget`; the shift is computed in `uint8`. -/
def computeTarget (bits : Nat) : Nat :=
  let exponent : UInt8 := UInt8.ofNat (bits >>> 24)
  let coefficient := bits &&& 0xFFFFFF
  if exponent ≤ 3 then
    coefficient >>> ((3 - exponent) * 8).toNat
  else
    coefficient <<< ((exponent - 3) * 8).toNat

/-- The loop of `mineBlock`: `polls` attempts, unless one succeeds before. -/
def mineLoop (lib : Stdlib) (target : Nat) : Nat → Nat → Block → Option Block
  | 0, _, _ => none
  | polls + 1, challenge, block =>
      let block := { block with challenge := challenge }
      let block := { block with hash := computeBlockHash lib block }
      if meetsTarget block.hash target then some block
      else mineLoop lib target polls (challenge + 1) block

/-- `mineBlock`, stopped after `polls` attempts. -/
def mineBlock (lib : Stdlib) (polls : Nat) (block : Block) : Option Block :=
  mineLoop lib (computeTarget 0x1f111111) polls 0 block

/-- A block with its challenge and hash filled in. -/
def Block.withChallenge (lib : Stdlib) (block : Block) (challenge : Int) : Block :=
  { block with
    challenge := challenge
    hash := computeBlockHash lib { block with challenge := challenge } }

theorem mineLoop_eq_some {lib : Stdlib} {target polls challenge : Nat} {block mined : Block}
    (found : mineLoop lib target polls challenge block = some mined) :
    ∃ challenge, mined = block.withChallenge lib challenge ∧
      meetsTarget mined.hash target = true := by
  induction polls generalizing challenge block mined with
  | zero => cases found
  | succ polls ih =>
      unfold mineLoop at found
      dsimp only at found
      split at found
      · next meets =>
        cases found
        exact ⟨challenge, rfl, meets⟩
      · obtain ⟨challenge', rfl, meets⟩ := ih found
        exact ⟨challenge', rfl, meets⟩

/-- Mining fills in a challenge and the hash, which meets the target. -/
theorem mineBlock_eq_some {lib : Stdlib} {polls : Nat} {block mined : Block}
    (found : mineBlock lib polls block = some mined) :
    ∃ challenge, mined = block.withChallenge lib challenge ∧
      meetsTarget mined.hash (computeTarget 0x1f111111) = true :=
  mineLoop_eq_some found

/-! ## The chain walk -/

/-- `isAllZeros`. -/
def isAllZeros (data : Bytes) : Bool := data.all (· = 0)

/-- The block `PrintAllNonces` finds under a key: there is data, and it decodes. -/
def blockAt (lib : Stdlib) (bcStore : Store) (key : GoString) : Option Block :=
  match bcStore.get key with
  | none => none
  | some [] => none
  | some (byte :: bytes) => lib.unmarshalBlock (byte :: bytes)

/-- The hash `PrintAllNonces` goes on to from a block, unless it takes it for genesis. -/
def Block.parentHash (block : Block) : Option Bytes :=
  if block.prevBlockHash.length = 0 ∨ isAllZeros block.prevBlockHash then none
  else some block.prevBlockHash

/-- The loop of `PrintAllNonces`, with the lines it prints; `none` when `fuel` iterations do not
finish it. -/
def walk (lib : Stdlib) (bcStore : Store) : Nat → Bytes → Option (List (Int × GoString))
  | 0, _ => none
  | fuel + 1, currentHash =>
      let key := hexEncode currentHash
      match blockAt lib bcStore key with
      | none => some []
      | some block =>
          match block.parentHash with
          | none => some [(block.nonce, key)]
          | some prev => (walk lib bcStore fuel prev).map ((block.nonce, key) :: ·)

/-- `PrintAllNonces`. -/
def printAllNonces (lib : Stdlib) (bcStore : Store) : Option (List (Int × GoString)) :=
  match bcStore.get lastBlockKey with
  | none => some []
  | some lastHash =>
      if lastHash.length = 0 then some []
      else walk lib bcStore (bcStore.data.size + 1) lastHash

/-- One step of the walk, from key to key. -/
def nextKey (lib : Stdlib) (bcStore : Store) (key : GoString) : Option GoString :=
  ((blockAt lib bcStore key).bind Block.parentHash).map hexEncode

theorem walk_eq_none_iff (lib : Stdlib) (bcStore : Store) (fuel : Nat) (hash : Bytes) :
    walk lib bcStore fuel hash = none ↔
      PointerWalk.after (nextKey lib bcStore) fuel (hexEncode hash) ≠ none := by
  induction fuel generalizing hash with
  | zero => simp [walk, PointerWalk.after]
  | succ fuel ih =>
      simp only [walk, PointerWalk.after, nextKey]
      cases blockAt lib bcStore (hexEncode hash) with
      | none => simp
      | some block =>
          cases parent : block.parentHash with
          | none => simp [parent]
          | some prev => simp [parent, ih]

theorem mem_keys_of_blockAt {lib : Stdlib} {bcStore : Store} {key : GoString} {block : Block}
    (found : blockAt lib bcStore key = some block) : key ∈ bcStore.data.keys := by
  unfold blockAt at found
  split at found
  · cases found
  · cases found
  · next data => exact FinMap.mem_keys_of_get (Store.data_of_get data)

theorem mem_keys_of_nextKey {lib : Stdlib} {bcStore : Store} {key key' : GoString}
    (edge : nextKey lib bcStore key = some key') : key ∈ bcStore.data.keys := by
  obtain ⟨hash, parent, -⟩ := Option.map_eq_some_iff.mp edge
  obtain ⟨block, found, -⟩ := Option.bind_eq_some_iff.mp parent
  exact mem_keys_of_blockAt found

/-- The bound on the iterations of the walk is not one of the code's: a walk that ends at all ends
within it. -/
theorem walk_eq_none_of_bound {lib : Stdlib} {bcStore : Store} {hash : Bytes}
    (unfinished : walk lib bcStore (bcStore.data.size + 1) hash = none) (fuel : Nat) :
    walk lib bcStore fuel hash = none := by
  rw [walk_eq_none_iff] at unfinished ⊢
  intro ended
  exact unfinished (PointerWalk.after_eq_none_of_ends
    (fun _ _ edge => mem_keys_of_nextKey edge) ⟨fuel, ended⟩)

theorem printAllNonces_eq_none_iff (lib : Stdlib) (bcStore : Store) :
    printAllNonces lib bcStore = none ↔
      ∃ lastHash, bcStore.get lastBlockKey = some lastHash ∧ lastHash ≠ [] ∧
        ∀ fuel, walk lib bcStore fuel lastHash = none := by
  unfold printAllNonces
  cases found : bcStore.get lastBlockKey with
  | none => simp
  | some lastHash =>
      simp only [Option.some.injEq, exists_eq_left', List.length_eq_zero_iff]
      by_cases vacant : lastHash = []
      · simp [vacant]
      · simp only [vacant, if_false, ne_eq, not_false_eq_true, true_and]
        exact ⟨fun unfinished => walk_eq_none_of_bound unfinished, fun endless => endless _⟩

/-- More iterations than the walk needs change nothing. -/
theorem walk_of_le {lib : Stdlib} {bcStore : Store} {fuel fuel' : Nat} {hash : Bytes}
    {lines : List (Int × GoString)} (le : fuel ≤ fuel')
    (ended : walk lib bcStore fuel hash = some lines) :
    walk lib bcStore fuel' hash = some lines := by
  induction fuel generalizing fuel' hash lines with
  | zero => cases ended
  | succ fuel ih =>
      obtain ⟨more, rfl⟩ := Nat.exists_eq_add_of_le' (Nat.lt_of_lt_of_le (Nat.succ_pos fuel) le)
      simp only [walk] at ended ⊢
      cases here : blockAt lib bcStore (hexEncode hash) with
      | none => simpa [here] using ended
      | some block =>
          cases parent : block.parentHash with
          | none => simpa [here, parent] using ended
          | some prev =>
              simp only [here, parent, Option.map_eq_some_iff] at ended ⊢
              obtain ⟨rest, later, rfl⟩ := ended
              exact ⟨rest, ih (by omega) later, rfl⟩

/-- The walk prints what it prints with any number of iterations that finishes it. -/
theorem printAllNonces_of_walk {lib : Stdlib} {bcStore : Store} {fuel : Nat} {lastHash : Bytes}
    {lines : List (Int × GoString)} (last : bcStore.get lastBlockKey = some lastHash)
    (filled : lastHash ≠ []) (ended : walk lib bcStore fuel lastHash = some lines) :
    printAllNonces lib bcStore = some lines := by
  have bounded : walk lib bcStore (bcStore.data.size + 1) lastHash ≠ none := by
    intro unfinished
    rw [walk_eq_none_of_bound unfinished] at ended
    cases ended
  obtain ⟨lines', finished⟩ := Option.ne_none_iff_exists'.mp bounded
  have same : lines' = lines := by
    have left := walk_of_le (Nat.le_max_left _ fuel) finished
    have right := walk_of_le (Nat.le_max_right (bcStore.data.size + 1) _) ended
    exact Option.some.inj (left.symm.trans right)
  unfold printAllNonces
  rw [last]
  dsimp only
  rw [if_neg (by simpa using filled), finished, same]

end Peerster
