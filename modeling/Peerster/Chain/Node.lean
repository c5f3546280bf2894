import Peerster.Chain.Ledger
import Peerster.Chain.Pow
import Peerster.Lib.Run

/-!
# The name-chain part of a node

The fields of `node` that the chain uses, `addBlockToBlockchain`, the two message handlers and the
mining attempts, and the runs they make up.

A handler call is one step.  `attemptToMine` is two: it fixes its candidate when it starts
(`startMining`), and broadcasts and applies the mined block when the proof of work is found
(`finishMining`), with any other steps in between.  The notifications on `newTxCh` only decide when
attempts start and stop, and a run may start and stop one at any time, so they are left out.

`addBlockToBlockchain` ends by walking the chain.  When that walk never ends its caller never gets
on: the listener handles no further message (`listening`), the miner makes no further attempt
(`mines`).
-/

namespace Peerster

/-- How a call returns, if it does. -/
inductive Return : Type
  | ok
  | error (text : GoString)
  | hangs
  deriving DecidableEq, Repr

/-- The fields of `node` that the chain code reads and writes, the candidate of the mining attempt
in progress, and whether the two goroutines still run. -/
structure Node where
  utxoSet : UTXOSet
  mempool : Mempool
  bcStore : Store
  currentHeight : Nat
  maxTxPerBlock : Nat
  mining : Option Block
  listening : Bool
  mines : Bool

namespace Node

/-- `NewPeer`, on a given blockchain store. -/
def newPeer (bcStore : Store) : Node where
  utxoSet := .empty
  mempool := .empty
  bcStore := bcStore
  currentHeight := 0
  maxTxPerBlock := 3
  mining := none
  listening := false
  mines := false

/-! ## Blocks -/

/-- The part of `addBlockToBlockchain` that writes the UTXO set; a block with nonce 0 is taken for
genesis. -/
def applyBlock (order : UTXOOrder) (utxoSet : UTXOSet) (block : Block) :
    UTXOSet × Option GoString :=
  if block.nonce = 0 then (utxoSet, none) else applyTransactions order utxoSet block.transactions

/-- The blockchain store after `addBlockToBlockchain` has written a block; an encoding error leaves
an empty value. -/
def storeBlock (lib : Stdlib) (bcStore : Store) (block : Block) : Store :=
  (bcStore.set (hexEncode block.hash) ((lib.marshalBlock block).getD [])).set lastBlockKey
    block.hash

/-- `addBlockToBlockchain`. -/
def addBlockToBlockchain (lib : Stdlib) (order : UTXOOrder) (n : Node) (block : Block) :
    Node × Return :=
  match applyBlock order n.utxoSet block with
  | (utxoSet, some err) => ({ n with utxoSet := utxoSet }, .error err)
  | (utxoSet, none) =>
      let n := { n with
        utxoSet := utxoSet
        bcStore := storeBlock lib n.bcStore block
        currentHeight := n.currentHeight + 1 }
      match printAllNonces lib n.bcStore with
      | none => (n, .hangs)
      | some _ => (n, .ok)

/-- The block `createGenesisBlock` builds. -/
def genesisBlock (lib : Stdlib) : Block :=
  let block : Block := ⟨[], (lib.sha256 lastBlockKey).1, 1, 0, []⟩
  { block with hash := computeBlockHash lib block }

/-- `Start`: the listener is started, then the genesis block is added, then the miner is started.
The result of adding the block is ignored. -/
def start (lib : Stdlib) (order : UTXOOrder) (n : Node) : Node :=
  match addBlockToBlockchain lib order n (genesisBlock lib) with
  | (n, .hangs) => { n with listening := true }
  | (n, _) => { n with listening := true, mines := true }

/-! ## Handlers -/

/-- `handleTransactionMessage`. -/
def handleTransactionMessage (lib : Stdlib) (amb : Ambient) (n : Node) (tx : Transaction) :
    Node × Return :=
  match validateTransaction lib amb n.utxoSet tx with
  | .error err => (n, .error err)
  | .ok () => ({ n with mempool := n.mempool.add tx.id tx }, .ok)

/-- `handleBlockMessage`. -/
def handleBlockMessage (lib : Stdlib) (amb : Ambient) (n : Node) (block : Block) :
    Node × Return :=
  match validateBlock lib amb n.utxoSet block with
  | .error err => (n, .error err)
  | .ok () =>
      match addBlockToBlockchain lib amb.utxoOrder n block with
      | (n, .ok) =>
          ({ n with mempool := removeTxsFromMempool amb.txOrder n.mempool block.transactions }, .ok)
      | (n, .error err) => (n, .error err)
      | (n, .hangs) => ({ n with listening := false }, .hangs)

/-! ## Mining attempts -/

/-- `createCandidateBlock`. -/
def createCandidateBlock (n : Node) (txs : List Transaction) : Block where
  hash := []
  prevBlockHash := (n.bcStore.get lastBlockKey).getD []
  nonce := n.currentHeight + 1
  challenge := 0
  transactions := txs

/-- `attemptToMine` up to the candidate block. -/
def startMining (amb : Ambient) (n : Node) : Node :=
  match getTxsFromMempool amb.txOrder n.mempool n.maxTxPerBlock with
  | [] => n
  | tx :: txs => { n with mining := some (createCandidateBlock n (tx :: txs)) }

/-- The block an attempt broadcasts, when it is given `polls` tries: the proof of work is found,
and the block message can be encoded. -/
def minedBlock (lib : Stdlib) (n : Node) (polls : Nat) : Option Block :=
  match n.mining with
  | none => none
  | some candidate =>
      match mineBlock lib polls candidate with
      | none => none
      | some block => if (lib.marshalBlock block).isSome then some block else none

/-- `attemptToMine` from the mined block on: the block is broadcast, then applied without
validation. -/
def finishMining (lib : Stdlib) (amb : Ambient) (n : Node) (polls : Nat) : Node :=
  match n.minedBlock lib polls with
  | none => { n with mining := none }
  | some block =>
      match addBlockToBlockchain lib amb.utxoOrder { n with mining := none } block with
      | (n, .ok) =>
          { n with mempool := removeTxsFromMempool amb.txOrder n.mempool block.transactions }
      | (n, .error _) => n
      | (n, .hangs) => { n with mines := false }

/-! ## Runs -/

/-- One step of a node. -/
inductive Event : Type
  | transactionMessage (amb : Ambient) (tx : Transaction)
  | blockMessage (amb : Ambient) (block : Block)
  | startMining (amb : Ambient)
  | finishMining (amb : Ambient) (polls : Nat)

/-- The node after one event.  An event of a goroutine that is stuck does not happen, and an
attempt starts when none is in progress. -/
def step (lib : Stdlib) (n : Node) : Event → Node
  | .transactionMessage amb tx =>
      if n.listening then (n.handleTransactionMessage lib amb tx).1 else n
  | .blockMessage amb block =>
      if n.listening then (n.handleBlockMessage lib amb block).1 else n
  | .startMining amb =>
      if n.mines ∧ n.mining = none then n.startMining amb else n
  | .finishMining amb polls =>
      if n.mines then n.finishMining lib amb polls else n

/-- The block an event applies to the UTXO set, with the iteration order of that call: a received
block that passes validation, or a mined one. -/
def applied (lib : Stdlib) (n : Node) : Event → Option (UTXOOrder × Block)
  | .blockMessage amb block =>
      if n.listening = true ∧ validateBlock lib amb n.utxoSet block = .ok () then
        some (amb.utxoOrder, block)
      else none
  | .finishMining amb polls =>
      if n.mines then (n.minedBlock lib polls).map fun block => (amb.utxoOrder, block) else none
  | .transactionMessage _ _ => none
  | .startMining _ => none

/-- The transactions an event executes. -/
def executedTxs (lib : Stdlib) (n : Node) (e : Event) : List Transaction :=
  match n.applied lib e with
  | none => []
  | some (order, block) =>
      if block.nonce = 0 then [] else executed order n.utxoSet block.transactions

/-- The state a node is in after `Start` and a list of events. -/
def afterEvents (lib : Stdlib) (order : UTXOOrder) (bcStore : Store) (es : List Event) : Node :=
  Run.run (step lib) (start lib order (newPeer bcStore)) es

/-- The transactions executed in a run, in order. -/
def history (lib : Stdlib) (order : UTXOOrder) (bcStore : Store) (es : List Event) :
    List Transaction :=
  Run.collect (step lib) (executedTxs lib) (start lib order (newPeer bcStore)) es

/-! ## What one step does -/

end Node

/-- What the chain code is about: the UTXO set and the value of `LastBlockKey`. -/
structure View where
  utxoSet : UTXOSet
  lastBlock : Option Bytes

/-- The view of a node. -/
def Node.view (n : Node) : View := ⟨n.utxoSet, n.bcStore.data.get lastBlockKey⟩

/-- What `addBlockToBlockchain` does to a view. -/
def View.add (order : UTXOOrder) (v : View) (block : Block) : View :=
  match Node.applyBlock order v.utxoSet block with
  | (utxoSet, some _) => ⟨utxoSet, v.lastBlock⟩
  | (utxoSet, none) => ⟨utxoSet, some block.hash⟩

theorem View.add_utxoSet (order : UTXOOrder) (v : View) (block : Block) :
    (v.add order block).utxoSet = (Node.applyBlock order v.utxoSet block).1 := by
  unfold View.add
  split <;> next eq => rw [eq]

namespace Node

section Step

variable {lib : Stdlib}

theorem applied_blockMessage {n : Node} {amb : Ambient} {block : Block}
    (up : n.listening = true) (valid : validateBlock lib amb n.utxoSet block = .ok ()) :
    n.applied lib (.blockMessage amb block) = some (amb.utxoOrder, block) :=
  if_pos ⟨up, valid⟩

theorem applied_finishMining {n : Node} (amb : Ambient) {polls : Nat} {block : Block}
    (up : n.mines = true) (mined : n.minedBlock lib polls = some block) :
    n.applied lib (.finishMining amb polls) = some (amb.utxoOrder, block) := by
  simp only [applied, up, if_true, mined, Option.map_some]

/-- An applied block that was received is the one received, and passed validation. -/
theorem validateBlock_of_applied {n : Node} {amb : Ambient} {order : UTXOOrder}
    {block block' : Block}
    (applies : n.applied lib (.blockMessage amb block) = some (order, block')) :
    block' = block ∧ validateBlock lib amb n.utxoSet block = .ok () := by
  simp only [applied] at applies
  split at applies
  · next accepted =>
    cases applies
    exact ⟨rfl, accepted.2⟩
  · cases applies

theorem minedBlock_of_applied {n : Node} {amb : Ambient} {polls : Nat} {order : UTXOOrder}
    {block : Block} (applies : n.applied lib (.finishMining amb polls) = some (order, block)) :
    n.minedBlock lib polls = some block := by
  simp only [applied] at applies
  split at applies
  · obtain ⟨block', mined, same⟩ := Option.map_eq_some_iff.mp applies
    cases same
    exact mined
  · cases applies

theorem addBlockToBlockchain_view (lib : Stdlib) (order : UTXOOrder) (n : Node) (block : Block) :
    (addBlockToBlockchain lib order n block).1.view = n.view.add order block := by
  have stored : (storeBlock lib n.bcStore block).data.get lastBlockKey = some block.hash :=
    Store.set_data_get_self (takes_lastBlockKey _) _
  unfold addBlockToBlockchain View.add view
  dsimp only
  cases applyBlock order n.utxoSet block with
  | mk utxoSet failed =>
      cases failed with
      | some err => rfl
      | none =>
          dsimp only
          rw [← stored]
          split <;> rfl

theorem addBlockToBlockchain_utxoSet (lib : Stdlib) (order : UTXOOrder) (n : Node) (block : Block) :
    (addBlockToBlockchain lib order n block).1.utxoSet =
      (applyBlock order n.utxoSet block).1 := by
  have changed := congrArg View.utxoSet (addBlockToBlockchain_view lib order n block)
  exact changed.trans (View.add_utxoSet order n.view block)

/-- What a call returns: the error met in applying the block, or else whether the walk over the new
store ends. -/
theorem addBlockToBlockchain_returns (lib : Stdlib) (order : UTXOOrder) (n : Node) (block : Block) :
    (addBlockToBlockchain lib order n block).2 =
      match (applyBlock order n.utxoSet block).2,
        printAllNonces lib (storeBlock lib n.bcStore block) with
      | some err, _ => .error err
      | none, none => .hangs
      | none, some _ => .ok := by
  unfold addBlockToBlockchain
  cases applyBlock order n.utxoSet block with
  | mk utxoSet failed =>
      cases failed with
      | some err => rfl
      | none =>
          dsimp only
          cases printAllNonces lib (storeBlock lib n.bcStore block) <;> rfl

section Returns

variable {order : UTXOOrder} {n : Node} {block : Block}

theorem addBlockToBlockchain_ok_iff :
    (addBlockToBlockchain lib order n block).2 = .ok ↔
      (applyBlock order n.utxoSet block).2 = none ∧
        printAllNonces lib (storeBlock lib n.bcStore block) ≠ none := by
  rw [addBlockToBlockchain_returns]
  split <;> simp_all

theorem addBlockToBlockchain_returns_error_iff {err : GoString} :
    (addBlockToBlockchain lib order n block).2 = .error err ↔
      (applyBlock order n.utxoSet block).2 = some err := by
  rw [addBlockToBlockchain_returns]
  split <;> simp_all

theorem addBlockToBlockchain_hangs_iff :
    (addBlockToBlockchain lib order n block).2 = .hangs ↔
      (applyBlock order n.utxoSet block).2 = none ∧
        printAllNonces lib (storeBlock lib n.bcStore block) = none := by
  rw [addBlockToBlockchain_returns]
  split <;> simp_all

end Returns

theorem addBlockToBlockchain_mempool (lib : Stdlib) (order : UTXOOrder) (n : Node) (block : Block) :
    (addBlockToBlockchain lib order n block).1.mempool = n.mempool := by
  unfold addBlockToBlockchain
  split
  · rfl
  · dsimp only
    split <;> rfl

theorem addBlockToBlockchain_mining (lib : Stdlib) (order : UTXOOrder) (n : Node) (block : Block) :
    (addBlockToBlockchain lib order n block).1.mining = n.mining := by
  unfold addBlockToBlockchain
  split
  · rfl
  · dsimp only
    split <;> rfl

/-- A mined block is the candidate with its challenge and hash filled in. -/
theorem minedBlock_eq_some {n : Node} {polls : Nat} {block : Block}
    (mined : n.minedBlock lib polls = some block) :
    ∃ candidate challenge, n.mining = some candidate ∧
      block = candidate.withChallenge lib challenge ∧
      meetsTarget block.hash (computeTarget 0x1f111111) = true ∧
      (lib.marshalBlock block).isSome = true := by
  unfold minedBlock at mined
  split at mined
  · cases mined
  · next candidate inProgress =>
    split at mined
    · cases mined
    · next found =>
      split at mined
      · next encoded =>
        cases mined
        obtain ⟨challenge, filled, meets⟩ := mineBlock_eq_some found
        exact ⟨candidate, challenge, inProgress, filled, meets, encoded⟩
      · cases mined

/-! ### Transitions -/

/-- The part of a node that only applied blocks change. -/
def ledger (n : Node) : UTXOSet × Store × Nat := (n.utxoSet, n.bcStore, n.currentHeight)

/-- What an event does to a node, case by case. -/
inductive Transition (lib : Stdlib) (n : Node) : Event → Node → Prop
  /-- The goroutine is stuck, the message is refused, or there is nothing to mine. -/
  | ignores {e : Event} (idle : n.applied lib e = none)
      (refused : ∀ amb tx, e = .transactionMessage amb tx →
        ¬ (n.listening = true ∧ validateTransaction lib amb n.utxoSet tx = .ok ()))
      (goesOn : ∀ amb polls, e = .finishMining amb polls → n.mines ≠ true) :
      Transition lib n e n
  | accepts {amb : Ambient} {tx : Transaction} (up : n.listening = true)
      (valid : validateTransaction lib amb n.utxoSet tx = .ok ()) :
      Transition lib n (.transactionMessage amb tx) { n with mempool := n.mempool.add tx.id tx }
  | starts {amb : Ambient} {txs : List Transaction} (filled : txs ≠ [])
      (taken : getTxsFromMempool amb.txOrder n.mempool n.maxTxPerBlock = txs) :
      Transition lib n (.startMining amb) { n with mining := some (createCandidateBlock n txs) }
  /-- No block is mined, or none that can be encoded. -/
  | stops {amb : Ambient} {polls : Nat} (idle : n.applied lib (.finishMining amb polls) = none) :
      Transition lib n (.finishMining amb polls) { n with mining := none }
  /-- A block is applied; only a call that returns without error has its transactions removed from
  the mempool. -/
  | applies {e : Event} {n' : Node} {order : UTXOOrder} {block : Block} (txOrder : TxOrder)
      (applies : n.applied lib e = some (order, block))
      (ledger : n'.ledger = (addBlockToBlockchain lib order n block).1.ledger)
      (mempool : n'.mempool = if (addBlockToBlockchain lib order n block).2 = .ok then
        removeTxsFromMempool txOrder n.mempool block.transactions else n.mempool)
      (mining : n'.mining = none ∨
        n'.mining = n.mining ∧ ∀ amb polls, e ≠ .finishMining amb polls) :
      Transition lib n e n'

theorem handleBlockMessage_applies {amb : Ambient} {n : Node} {block : Block}
    (valid : validateBlock lib amb n.utxoSet block = .ok ()) :
    (n.handleBlockMessage lib amb block).1.ledger =
        (addBlockToBlockchain lib amb.utxoOrder n block).1.ledger ∧
      ((n.handleBlockMessage lib amb block).1.mempool =
        if (addBlockToBlockchain lib amb.utxoOrder n block).2 = .ok then
          removeTxsFromMempool amb.txOrder n.mempool block.transactions else n.mempool) ∧
      (n.handleBlockMessage lib amb block).1.mining = n.mining := by
  have mempool := addBlockToBlockchain_mempool lib amb.utxoOrder n block
  have mining := addBlockToBlockchain_mining lib amb.utxoOrder n block
  unfold handleBlockMessage
  rw [valid]
  dsimp only
  split <;> next eq =>
    rw [eq] at mempool mining ⊢
    refine ⟨rfl, ?_, mining⟩
    simp [← mempool]

/-- The attempt in progress plays no part in adding a block. -/
theorem addBlockToBlockchain_without_mining (lib : Stdlib) (order : UTXOOrder) (n : Node)
    (block : Block) :
    addBlockToBlockchain lib order { n with mining := none } block =
      ({ (addBlockToBlockchain lib order n block).1 with mining := none },
        (addBlockToBlockchain lib order n block).2) := by
  unfold addBlockToBlockchain
  dsimp only
  split
  · rfl
  · split <;> rfl

theorem finishMining_applies (amb : Ambient) {n : Node} {polls : Nat} {block : Block}
    (mined : n.minedBlock lib polls = some block) :
    (n.finishMining lib amb polls).ledger =
        (addBlockToBlockchain lib amb.utxoOrder n block).1.ledger ∧
      ((n.finishMining lib amb polls).mempool =
        if (addBlockToBlockchain lib amb.utxoOrder n block).2 = .ok then
          removeTxsFromMempool amb.txOrder n.mempool block.transactions else n.mempool) ∧
      (n.finishMining lib amb polls).mining = none := by
  have mempool := addBlockToBlockchain_mempool lib amb.utxoOrder n block
  unfold finishMining
  rw [mined]
  dsimp only
  rw [addBlockToBlockchain_without_mining]
  cases call : addBlockToBlockchain lib amb.utxoOrder n block with
  | mk n' returns =>
      rw [call] at mempool
      cases returns <;> exact ⟨rfl, by simp [← mempool], rfl⟩

theorem step_transactionMessage_refused {amb : Ambient} {n : Node} {tx : Transaction}
    (refused : ¬ (n.listening = true ∧ validateTransaction lib amb n.utxoSet tx = .ok ())) :
    n.step lib (.transactionMessage amb tx) = n := by
  simp only [step]
  split
  · next up =>
    unfold handleTransactionMessage
    split
    · rfl
    · next valid => exact (refused ⟨up, valid⟩).elim
  · rfl

theorem step_blockMessage_refused {amb : Ambient} {n : Node} {block : Block}
    (refused : ¬ (n.listening = true ∧ validateBlock lib amb n.utxoSet block = .ok ())) :
    n.step lib (.blockMessage amb block) = n := by
  simp only [step]
  split
  · next up =>
    unfold handleBlockMessage
    split
    · rfl
    · next valid => exact (refused ⟨up, valid⟩).elim
  · rfl

/-- Every step is a transition. -/
theorem step_transition (lib : Stdlib) (n : Node) (e : Event) :
    n.Transition lib e (n.step lib e) := by
  cases e with
  | transactionMessage amb tx =>
      by_cases accepted : n.listening = true ∧ validateTransaction lib amb n.utxoSet tx = .ok ()
      · obtain ⟨up, valid⟩ := accepted
        rw [step, if_pos up, handleTransactionMessage, valid]
        exact .accepts up valid
      · rw [step_transactionMessage_refused accepted]
        refine .ignores rfl (fun _ _ this => ?_) (fun _ _ other => Event.noConfusion other)
        cases this
        exact accepted
  | blockMessage amb block =>
      have other : ∀ amb' polls, Event.blockMessage amb block ≠ .finishMining amb' polls :=
        fun _ _ same => Event.noConfusion same
      by_cases accepted : n.listening = true ∧ validateBlock lib amb n.utxoSet block = .ok ()
      · obtain ⟨up, valid⟩ := accepted
        obtain ⟨ledger, mempool, mining⟩ := handleBlockMessage_applies valid
        rw [step, if_pos up]
        exact .applies amb.txOrder (applied_blockMessage up valid) ledger mempool
          (.inr ⟨mining, other⟩)
      · rw [step_blockMessage_refused accepted]
        exact .ignores (if_neg accepted) (fun _ _ this => Event.noConfusion this)
          fun _ _ this => (other _ _ this).elim
  | startMining amb =>
      have nothing : n.Transition lib (.startMining amb) n :=
        .ignores rfl (fun _ _ this => Event.noConfusion this) fun _ _ this => Event.noConfusion this
      simp only [step]
      split
      · unfold startMining
        split
        · exact nothing
        · next tx txs taken => exact .starts (List.cons_ne_nil tx txs) taken
      · exact nothing
  | finishMining amb polls =>
      by_cases up : n.mines = true
      · rw [step, if_pos up]
        cases mined : n.minedBlock lib polls with
        | none =>
            rw [finishMining, mined]
            refine .stops ?_
            rw [applied, if_pos up, mined, Option.map_none]
        | some block =>
            obtain ⟨ledger, mempool, mining⟩ := finishMining_applies amb mined
            exact .applies amb.txOrder (applied_finishMining amb up mined) ledger mempool
              (.inl mining)
      · have same : n.step lib (.finishMining amb polls) = n := if_neg up
        rw [same]
        exact .ignores (if_neg up) (fun _ _ this => Event.noConfusion this) fun _ _ _ => up

/-- A ledger changes only when a block is applied. -/
theorem Transition.ledger_eq {n n' : Node} {e : Event} (transition : n.Transition lib e n') :
    n'.ledger =
      match n.applied lib e with
      | none => n.ledger
      | some (order, block) => (addBlockToBlockchain lib order n block).1.ledger := by
  cases transition with
  | ignores idle _ _ => rw [idle]
  | accepts _ _ => rfl
  | starts _ _ => rfl
  | stops idle =>
      rw [idle]
      rfl
  | applies _ applies ledger _ _ => rw [applies, ledger]

/-- A candidate was there before the event, or is created by it from the mempool. -/
theorem step_mining {n : Node} {e : Event} {candidate : Block}
    (inProgress : (n.step lib e).mining = some candidate) :
    (n.mining = some candidate ∧ ∀ amb polls, e = .finishMining amb polls → n.mines ≠ true) ∨
      ∃ amb, e = .startMining amb ∧ candidate.transactions ≠ [] ∧ candidate =
        createCandidateBlock n (getTxsFromMempool amb.txOrder n.mempool n.maxTxPerBlock) := by
  have transition := step_transition lib n e
  revert inProgress
  generalize n.step lib e = n' at transition
  intro inProgress
  cases transition with
  | ignores _ _ goesOn => exact .inl ⟨inProgress, goesOn⟩
  | accepts _ _ => exact .inl ⟨inProgress, fun _ _ this => Event.noConfusion this⟩
  | starts filled taken =>
      cases inProgress
      exact .inr ⟨_, rfl, filled, by rw [taken]⟩
  | stops _ => cases inProgress
  | applies _ _ _ _ mining =>
      rcases mining with none | ⟨same, other⟩
      · rw [none] at inProgress
        cases inProgress
      · rw [same] at inProgress
        exact .inl ⟨inProgress, fun amb polls this => (other amb polls this).elim⟩

/-- A view changes only when a block is applied, and then as `View.add` says. -/
theorem step_view (lib : Stdlib) (n : Node) (e : Event) :
    (n.step lib e).view =
      match n.applied lib e with
      | none => n.view
      | some (order, block) => n.view.add order block := by
  have changed := congrArg
    (fun l : UTXOSet × Store × Nat => View.mk l.1 (l.2.1.data.get lastBlockKey))
    (step_transition lib n e).ledger_eq
  cases applies : n.applied lib e with
  | none =>
      rw [applies] at changed
      exact changed
  | some call =>
      rw [applies] at changed
      exact changed.trans (addBlockToBlockchain_view lib call.1 n call.2)

/-- The UTXO set changes only when a block is applied, and then as `applyBlock` says. -/
theorem step_utxoSet (n : Node) (e : Event) :
    (n.step lib e).utxoSet =
      match n.applied lib e with
      | none => n.utxoSet
      | some (order, block) => (applyBlock order n.utxoSet block).1 := by
  have changed := congrArg View.utxoSet (step_view lib n e)
  cases applies : n.applied lib e with
  | none =>
      rw [applies] at changed
      exact changed
  | some call =>
      rw [applies] at changed
      exact changed.trans (View.add_utxoSet call.1 n.view call.2)

theorem applyBlock_keyed {order : UTXOOrder} {s : UTXOSet} (keyed : Keyed s) (block : Block) :
    Keyed (applyBlock order s block).1 := by
  unfold applyBlock
  split
  · exact keyed
  · exact applyTransactions_keyed order keyed block.transactions

theorem step_keyed {n : Node} (keyed : Keyed n.utxoSet) (e : Event) :
    Keyed (n.step lib e).utxoSet := by
  rw [step_utxoSet]
  cases n.applied lib e with
  | none => exact keyed
  | some call => exact applyBlock_keyed keyed call.2

/-- The entry of a name after a block is the last executed touch of it. -/
theorem applyBlock_get (order : UTXOOrder) (s : UTXOSet) (block : Block) (d : GoString) :
    (applyBlock order s block).1.get d =
      (LastTouch.lastTouch Transaction.effect
        (if block.nonce = 0 then [] else executed order s block.transactions) d).getD
          (s.get d) := by
  unfold applyBlock
  split
  · rfl
  · exact applyTransactions_get_executed order s block.transactions d

/-- The entry of a name after an event is the last executed touch of it. -/
theorem step_get (n : Node) (e : Event) (d : GoString) :
    (n.step lib e).utxoSet.get d =
      (LastTouch.lastTouch Transaction.effect (n.executedTxs lib e) d).getD
        (n.utxoSet.get d) := by
  rw [step_utxoSet]
  unfold executedTxs
  cases n.applied lib e with
  | none => rfl
  | some call => exact applyBlock_get call.1 n.utxoSet call.2 d

end Step

/-! ## Invariants of every run -/

section Reachable

variable (lib : Stdlib) (order : UTXOOrder) (bcStore : Store)

/-- A node starts with an empty set and the genesis block, whatever its store holds. -/
theorem start_view :
    (start lib order (newPeer bcStore)).view = ⟨.empty, some (genesisBlock lib).hash⟩ := by
  have effect := addBlockToBlockchain_view lib order (newPeer bcStore) (genesisBlock lib)
  unfold start
  split <;> next eq => rw [eq] at effect; exact effect

theorem start_utxoSet : (start lib order (newPeer bcStore)).utxoSet = .empty :=
  congrArg View.utxoSet (start_view lib order bcStore)

theorem start_mempool : (start lib order (newPeer bcStore)).mempool = .empty := by
  have same := addBlockToBlockchain_mempool lib order (newPeer bcStore)
    (genesisBlock lib)
  unfold start
  split <;> next eq => rw [eq] at same; exact same

theorem start_mining : (start lib order (newPeer bcStore)).mining = none := by
  have same := addBlockToBlockchain_mining lib order (newPeer bcStore)
    (genesisBlock lib)
  unfold start
  split <;> next eq => rw [eq] at same; exact same

/-- In every reachable state every record is stored under its own name. -/
theorem afterEvents_keyed (es : List Event) :
    Keyed (afterEvents lib order bcStore es).utxoSet := by
  refine Run.run_invariant (I := fun (n : Node) => Keyed n.utxoSet) ?_ ?_ es
  · rw [start_utxoSet]
    intro d u present
    cases present
  · intro n e keyed
    exact step_keyed keyed e

/-- **The representation of the UTXO set.**  In every reachable state records are stored under their
names, a lookup finds exactly the record of the name if it has the wanted owner, and its result is
the same for every iteration order. -/
theorem reachable_lookup (es : List Event) :
    let utxoSet := (afterEvents lib order bcStore es).utxoSet
    (∀ k u, utxoSet.get k = some u → u.domainName = k) ∧
      ∀ (o : UTXOOrder) (query : UTXO),
        (∀ u, findUTXO o utxoSet query = .ok u ↔
          utxoSet.get query.domainName = some u ∧ u.owner = query.owner) ∧
        ∀ o', findUTXO o utxoSet query = findUTXO o' utxoSet query := by
  have keyed := afterEvents_keyed lib order bcStore es
  refine ⟨keyed, fun o query => ⟨fun u => ?_, fun o' => ?_⟩⟩
  · exact findUTXO_ok_iff keyed
  · exact findUTXO_order keyed

/-- In every reachable state the entry of a name is what the last executed transaction that
touches it made of it. -/
theorem afterEvents_get (es : List Event) (d : GoString) :
    (afterEvents lib order bcStore es).utxoSet.get d =
      (LastTouch.lastTouch Transaction.effect (history lib order bcStore es) d).getD none := by
  refine Run.run_collect_invariant (I := fun h (n : Node) => ∀ d, n.utxoSet.get d =
    (LastTouch.lastTouch Transaction.effect h d).getD none) ?_ ?_ es d
  · intro d
    rw [start_utxoSet]
    rfl
  · intro h n e inv d
    rw [step_get, LastTouch.lastTouch_append, inv]
    cases LastTouch.lastTouch Transaction.effect (n.executedTxs lib e) d <;> rfl

end Reachable

end Node

/-! ## A small environment

Concrete runs use a table in place of the standard library: SHA-256 on the two strings `Start`
hashes, and an encoding that numbers the blocks of the run.  Maps are ranged over in key order. -/

/-- SHA-256 of `lastBlockKey`. -/
def genesisParent : Digest :=
  ⟨[96, 224, 91, 209, 177, 149, 175, 47, 148, 17, 47, 167, 25, 122, 92, 136, 40, 144, 88, 132, 12,
    231, 198, 223, 150, 147, 117, 107, 198, 37, 15, 85], by decide⟩

/-- SHA-256 of the genesis preimage, `"0"` followed by `genesisParent`. -/
def genesisHash : Digest :=
  ⟨[149, 154, 240, 249, 145, 208, 38, 241, 1, 248, 67, 109, 104, 22, 44, 230, 35, 165, 201, 67, 221,
    169, 33, 103, 1, 27, 255, 190, 6, 133, 97, 223], by decide⟩

/-- The genesis block of the environment. -/
def sampleGenesis : Block := ⟨genesisHash.1, genesisParent.1, 1, 0, []⟩

/-- The environment of a run whose blocks after genesis are `blocks`. -/
def sampleLib (blocks : List Block) : Stdlib where
  sha256 data := if data = lastBlockKey then genesisParent else genesisHash
  marshalTransaction tx := some tx.id
  marshalBlock block :=
    ((sampleGenesis :: blocks).idxOf? block).map fun i => [UInt8.ofNat (i + 1)]
  unmarshalBlock data :=
    match data with
    | [i] => (sampleGenesis :: blocks)[i.toNat - 1]?
    | _ => none

/-- The encoding of the environment decodes. -/
theorem sampleLib_decodes {blocks : List Block} (short : blocks.length < 255) {block : Block}
    {data : Bytes} (encoded : (sampleLib blocks).marshalBlock block = some data) :
    data ≠ [] ∧ (sampleLib blocks).unmarshalBlock data = some block := by
  obtain ⟨i, found, rfl⟩ := Option.map_eq_some_iff.mp encoded
  obtain ⟨inside, here, -⟩ := List.idxOf?_eq_some_iff.mp found
  have small : i < UInt8.size - 1 := by
    rw [List.length_cons] at inside
    show i < 255
    omega
  refine ⟨List.cons_ne_nil _ _, ?_⟩
  show (sampleGenesis :: blocks)[(UInt8.ofNat (i + 1)).toNat - 1]? = some block
  rw [UInt8.toNat_ofNat_of_lt' (by omega), Nat.add_sub_cancel, List.getElem?_eq_getElem inside,
    here]

def sampleAmbient (now : Time) : Ambient := ⟨now, .sorted, .sorted⟩

def sampleStore : Store := ⟨.inmemory, .empty⟩

/-- A block with one-byte hash `i` and no parent. -/
def sampleBlock (i : UInt8) (txs : List Transaction) : Block := ⟨[i], [], 2, 0, txs⟩

/-- A registration, a reveal or an update. -/
def sampleTx (type : TransactionType) (id : String) (input output : UTXO) : Transaction where
  id := str id
  type := type
  input := input
  output := output
  plainDomain := output.domainName
  salt := []
  hashedDomain := []
  fees := 1

/-- The record of a name. -/
def sampleUTXO (domainName owner : String) (expiration : Time) : UTXO :=
  ⟨str domainName, str "192.168.1.1", str owner, expiration⟩

/-- The blocks arrive one after the other. -/
def Node.deliver (blocks : List Block) : List Node.Event :=
  blocks.map (.blockMessage (sampleAmbient 0))

end Peerster
