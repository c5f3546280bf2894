import Peerster.Chain.Application
import Peerster.Chain.Batches

/-!
# Waking the miner

The miner waits for a notification on `newTxCh`, the buffered channel that
`handleTransactionMessage` sends on after it has added a transaction to the mempool.  Every attempt
starts a watcher, which takes notifications from the same channel: if the candidate has room it
closes the attempt's `stopMiningCh` and returns, and if not it goes on, also after the attempt has
ended.  A notification that a watcher takes starts no attempt, so transactions can be left waiting
with nobody to be notified.

One notification is sent for each transaction, so notifications and transactions balance
(`Balanced`).  As long as notifications are not taken faster than transactions leave the mempool,
one is pending whenever the miner waits and a transaction does (`notified_of_settled`).  They are
taken faster only after a watcher has taken one or an attempt has ended without its block
(`settled_of_undisturbed`).

The steps here are those at which goroutines meet: the handler validates, adds and sends in three
steps, the miner takes a notification, reads the mempool, mines and applies, and removes the
transactions in four.
-/

namespace Peerster

/-- Where `minerRoutine` is: waiting for a notification, before it reads the mempool, in
`mineBlock`, before it removes the transactions of the added block, or in a chain walk that never
ends. -/
inductive Phase : Type
  | idle
  | woken
  | mining (candidate : Block)
  | cleaning (block : Block)
  | hung
  deriving DecidableEq, Repr

/-- The watcher of an attempt, and whether the attempt's candidate is full. -/
structure Watcher where
  attempt : Nat
  full : Bool
  deriving DecidableEq, Repr

/-- A node with its miner, the watchers, the handlers that have validated a transaction, the number
of handlers that are about to send, and the number of notifications in `newTxCh`.  `stopped` says
that the `stopMiningCh` of the last attempt is closed. -/
structure MinerSystem where
  node : Node
  phase : Phase
  attempts : Nat
  stopped : Bool
  watchers : List Watcher
  validated : List Transaction
  sending : Nat
  pending : Nat

namespace MinerSystem

/-- The capacity of `newTxCh`. -/
def capacity : Nat := 100

/-- A step of one of the goroutines. -/
inductive Event : Type
  | validate (amb : Ambient) (tx : Transaction)
  | add (tx : Transaction)
  | notify
  | blockMessage (amb : Ambient) (block : Block)
  | wake
  | start (amb : Ambient)
  | watch (watcher : Watcher)
  | mine (amb : Ambient) (polls : Nat)
  | clean (order : TxOrder)

/-- `attemptToMine` from the call of `getTxsFromMempool` to the start of the watcher. -/
def start (s : MinerSystem) (amb : Ambient) : MinerSystem :=
  match getTxsFromMempool amb.txOrder s.node.mempool s.node.maxTxPerBlock with
  | [] => { s with phase := .idle }
  | tx :: txs =>
      { s with
        phase := .mining (s.node.createCandidateBlock (tx :: txs))
        attempts := s.attempts + 1
        stopped := false
        watchers := ⟨s.attempts, !((tx :: txs).length < s.node.maxTxPerBlock)⟩ :: s.watchers }

/-- The watcher takes a notification. -/
def watch (s : MinerSystem) (watcher : Watcher) : MinerSystem :=
  let s := { s with pending := s.pending - 1 }
  if watcher.full then s
  else
    { s with
      stopped := s.stopped || watcher.attempt + 1 == s.attempts
      watchers := s.watchers.erase watcher }

/-- `attemptToMine` from `mineBlock`, which has polled `polls` times, to `addBlockToBlockchain`. -/
def mine (lib : Stdlib) (s : MinerSystem) (amb : Ambient) (polls : Nat) (candidate : Block) :
    MinerSystem :=
  match mineBlock lib polls candidate with
  | none => if s.stopped then { s with phase := .idle } else s
  | some block =>
      if (lib.marshalBlock block).isSome then
        match s.node.addBlockToBlockchain lib amb.utxoOrder block with
        | (node, .ok) => { s with node := node, phase := .cleaning block }
        | (node, .error _) => { s with node := node, phase := .idle }
        | (node, .hangs) => { s with node := node, phase := .hung }
      else { s with phase := .idle }

/-- One step; an event that is not enabled does not happen. -/
def step (lib : Stdlib) (s : MinerSystem) : Event → MinerSystem
  | .validate amb tx =>
      if s.node.listening = true ∧ validateTransaction lib amb s.node.utxoSet tx = .ok () then
        { s with validated := tx :: s.validated }
      else s
  | .add tx =>
      if s.validated.contains tx then
        { s with
          node := { s.node with mempool := s.node.mempool.add tx.id tx }
          validated := s.validated.erase tx
          sending := s.sending + 1 }
      else s
  | .notify =>
      if 0 < s.sending ∧ s.pending < capacity then
        { s with sending := s.sending - 1, pending := s.pending + 1 }
      else s
  | .blockMessage amb block => { s with node := s.node.step lib (.blockMessage amb block) }
  | .wake =>
      if s.phase = .idle ∧ s.node.mines = true ∧ 0 < s.pending then
        { s with phase := .woken, pending := s.pending - 1 }
      else s
  | .start amb => if s.phase = .woken then s.start amb else s
  | .watch watcher =>
      if s.watchers.contains watcher = true ∧ 0 < s.pending then s.watch watcher else s
  | .mine amb polls =>
      match s.phase with
      | .mining candidate => s.mine lib amb polls candidate
      | .idle | .woken | .cleaning _ | .hung => s
  | .clean order =>
      match s.phase with
      | .cleaning block =>
          { s with
            node := { s.node with
              mempool := removeTxsFromMempool order s.node.mempool block.transactions }
            phase := .idle }
      | .idle | .woken | .mining _ | .hung => s

/-- A started node. -/
def initial (lib : Stdlib) (order : UTXOOrder) (bcStore : Store) : MinerSystem where
  node := Node.start lib order (Node.newPeer bcStore)
  phase := .idle
  attempts := 0
  stopped := false
  watchers := []
  validated := []
  sending := 0
  pending := 0

/-- No lost wake-up: if a transaction is in the mempool, no attempt is in progress and every handler
has sent its notification, then a notification is pending. -/
def Notified (s : MinerSystem) : Prop :=
  s.phase = .idle → (∃ id, id ∈ s.node.mempool.keys) → s.sending = 0 → 0 < s.pending

/-! ## Counting notifications -/

/-- How many transactions of the mempool have the ID of one of `txs`. -/
def named (n : Node) (txs : List Transaction) : Nat :=
  (n.mempool.keys.filter fun id => (txs.map Transaction.id).contains id).card

/-- How many notifications a step takes from `newTxCh`, for the miner or for a watcher. -/
def taken (s : MinerSystem) : Event → Nat
  | .wake => if s.phase = .idle ∧ s.node.mines = true ∧ 0 < s.pending then 1 else 0
  | .watch watcher => if s.watchers.contains watcher = true ∧ 0 < s.pending then 1 else 0
  | .validate _ _ => 0
  | .add _ => 0
  | .notify => 0
  | .blockMessage _ _ => 0
  | .start _ => 0
  | .mine _ _ => 0
  | .clean _ => 0

/-- How many transactions leave the mempool in a step: those of a received block, those of the block
that the miner has added, and one that gives way to another of its ID. -/
def settled (lib : Stdlib) (s : MinerSystem) : Event → Nat
  | .add tx =>
      if s.validated.contains tx = true ∧ s.node.mempool.exists? tx.id = true then 1 else 0
  | .blockMessage amb block =>
      match s.node.confirmed lib (.blockMessage amb block) with
      | none => 0
      | some block => named s.node block.transactions
  | .clean _ =>
      match s.phase with
      | .cleaning block => named s.node block.transactions
      | .idle | .woken | .mining _ | .hung => 0
  | .validate _ _ => 0
  | .notify => 0
  | .wake => 0
  | .start _ => 0
  | .watch _ => 0
  | .mine _ _ => 0

/-- What the steps of a run come to. -/
def total (lib : Stdlib) (count : MinerSystem → Event → Nat) (s : MinerSystem) : List Event → Nat
  | [] => 0
  | e :: es => count s e + total lib count (s.step lib e) es

/-- One notification is sent for each transaction that is added: those pending, about to be sent and
taken are as many as the transactions that wait and those that have left. -/
def Balanced (taken settled : Nat) (s : MinerSystem) : Prop :=
  s.pending + s.sending + taken = s.node.mempool.size + settled

section Balanced

variable {lib : Stdlib} {s s' : MinerSystem} {t u : Nat}

theorem size_add (mempool : Mempool) (id : GoString) (tx : Transaction) :
    (mempool.add id tx).size = mempool.size + if mempool.exists? id = true then 0 else 1 := by
  have present : mempool.exists? id = true ↔ id ∈ mempool.keys := (mempool.mem_keys id).symm
  unfold FinMap.size FinMap.add
  dsimp only
  by_cases mem : id ∈ mempool.keys
  · rw [if_pos (present.mpr mem), Finset.insert_eq_of_mem mem, Nat.add_zero]
  · rw [if_neg fun exists' => mem (present.mp exists'), Finset.card_insert_of_notMem mem]

theorem size_removeTxsFromMempool (order : TxOrder) (n : Node) (txs : List Transaction) :
    (removeTxsFromMempool order n.mempool txs).size + named n txs = n.mempool.size := by
  unfold FinMap.size named
  rw [keys_removeTxsFromMempool, Nat.add_comm]
  exact Finset.card_filter_add_card_filter_not _

/-- A step that takes no notification and moves no transaction. -/
theorem Balanced.of_same (balanced : Balanced t u s) (pending : s'.pending = s.pending)
    (sending : s'.sending = s.sending) (mempool : s'.node.mempool = s.node.mempool) :
    Balanced (t + 0) (u + 0) s' := by
  unfold Balanced
  rw [pending, sending, mempool]
  exact balanced

theorem start_same (amb : Ambient) :
    (s.start amb).pending = s.pending ∧ (s.start amb).sending = s.sending ∧
      (s.start amb).node.mempool = s.node.mempool := by
  unfold MinerSystem.start
  split <;> exact ⟨rfl, rfl, rfl⟩

theorem watch_counts (watcher : Watcher) :
    (s.watch watcher).pending = s.pending - 1 ∧ (s.watch watcher).sending = s.sending ∧
      (s.watch watcher).node.mempool = s.node.mempool := by
  unfold MinerSystem.watch
  split <;> exact ⟨rfl, rfl, rfl⟩

/-- Mining and applying a block leaves the mempool alone, however it ends. -/
theorem mine_same (lib : Stdlib) (amb : Ambient) (polls : Nat) (candidate : Block) :
    (s.mine lib amb polls candidate).pending = s.pending ∧
      (s.mine lib amb polls candidate).sending = s.sending ∧
      (s.mine lib amb polls candidate).node.mempool = s.node.mempool := by
  have same := Node.addBlockToBlockchain_mempool lib amb.utxoOrder s.node
  unfold MinerSystem.mine
  split
  · split <;> exact ⟨rfl, rfl, rfl⟩
  · next block _ =>
    split
    · split <;> next eq => exact ⟨rfl, rfl, (congrArg (·.1.mempool) eq).symm.trans (same block)⟩
    · exact ⟨rfl, rfl, rfl⟩

theorem Balanced.add (balanced : Balanced t u s) (tx : Transaction) :
    Balanced (t + s.taken (.add tx)) (u + s.settled lib (.add tx)) (s.step lib (.add tx)) := by
  have size := size_add s.node.mempool tx.id tx
  unfold Balanced at balanced ⊢
  simp only [taken, settled, step]
  by_cases valid : s.validated.contains tx = true
  · rw [if_pos valid]
    dsimp only
    rw [size]
    by_cases present : s.node.mempool.exists? tx.id = true
    · rw [if_pos present, if_pos ⟨valid, present⟩]
      omega
    · rw [if_neg present, if_neg fun both => present both.2]
      omega
  · rw [if_neg valid, if_neg fun both => valid both.1]
    exact balanced

theorem Balanced.blockMessage (balanced : Balanced t u s) (amb : Ambient) (block : Block) :
    Balanced (t + s.taken (.blockMessage amb block)) (u + s.settled lib (.blockMessage amb block))
      (s.step lib (.blockMessage amb block)) := by
  unfold Balanced at balanced ⊢
  simp only [taken, settled, step]
  rcases (Node.step_transition lib s.node (.blockMessage amb block)).mempool_eq with
    ⟨same, -, none⟩ | ⟨tx, accepts, -, -⟩ | ⟨order, block', -, some, removed⟩
  · rw [none, same]
    exact balanced
  · cases accepts
  · have size := size_removeTxsFromMempool order s.node block'.transactions
    rw [some, removed]
    dsimp only
    omega

theorem Balanced.clean (balanced : Balanced t u s) (order : TxOrder) :
    Balanced (t + s.taken (.clean order)) (u + s.settled lib (.clean order))
      (s.step lib (.clean order)) := by
  simp only [taken, settled, step]
  cases s.phase with
  | cleaning block =>
      have size := size_removeTxsFromMempool order s.node block.transactions
      unfold Balanced at balanced ⊢
      dsimp only
      omega
  | idle => exact balanced
  | woken => exact balanced
  | mining candidate => exact balanced
  | hung => exact balanced

/-- Every step keeps the balance. -/
theorem Balanced.step (balanced : Balanced t u s) (e : Event) :
    Balanced (t + s.taken e) (u + s.settled lib e) (s.step lib e) := by
  cases e with
  | validate amb tx =>
      simp only [taken, settled, MinerSystem.step]
      split <;> exact balanced
  | add tx => exact balanced.add tx
  | notify =>
      unfold Balanced at balanced ⊢
      simp only [taken, settled, MinerSystem.step]
      split
      · dsimp only
        omega
      · exact balanced
  | blockMessage amb block => exact balanced.blockMessage amb block
  | wake =>
      unfold Balanced at balanced ⊢
      simp only [taken, settled, MinerSystem.step]
      split
      · dsimp only
        omega
      · exact balanced
  | start amb =>
      simp only [taken, settled, MinerSystem.step]
      split
      · obtain ⟨pending, sending, mempool⟩ := s.start_same amb
        exact balanced.of_same pending sending mempool
      · exact balanced
  | watch watcher =>
      obtain ⟨pending, sending, mempool⟩ := s.watch_counts watcher
      unfold Balanced at balanced ⊢
      simp only [taken, settled, MinerSystem.step]
      split
      · rw [pending, sending, mempool]
        omega
      · exact balanced
  | mine amb polls =>
      simp only [taken, settled, MinerSystem.step]
      cases s.phase with
      | mining candidate =>
          obtain ⟨pending, sending, mempool⟩ := s.mine_same lib amb polls candidate
          exact balanced.of_same pending sending mempool
      | idle => exact balanced
      | woken => exact balanced
      | cleaning block => exact balanced
      | hung => exact balanced
  | clean order => exact balanced.clean order

theorem initial_balanced (lib : Stdlib) (order : UTXOOrder) (bcStore : Store) :
    Balanced 0 0 (initial lib order bcStore) := by
  unfold Balanced initial
  rw [Node.start_mempool]
  rfl

theorem total_cons (count : MinerSystem → Event → Nat) (e : Event) (es : List Event) :
    total lib count s (e :: es) = count s e + total lib count (s.step lib e) es := rfl

theorem Balanced.run (lib : Stdlib) (balanced : Balanced t u s) (es : List Event) :
    Balanced (t + total lib taken s es) (u + total lib (settled lib) s es)
      (Run.run (MinerSystem.step lib) s es) := by
  induction es generalizing s t u with
  | nil => exact balanced
  | cons e es ih =>
      rw [total_cons, total_cons, ← Nat.add_assoc, ← Nat.add_assoc]
      exact ih (balanced.step e)

end Balanced

/-! ## Attempts that are not disturbed -/

/-- The block of a candidate can be encoded, whichever challenge it gets, and none of its
transactions finds its input gone. -/
def Appends (lib : Stdlib) (n : Node) (candidate : Block) : Prop :=
  (∀ challenge, (lib.marshalBlock (candidate.withChallenge lib challenge)).isSome = true) ∧
    ∀ before t, ¬ StopsAt n.utxoSet candidate.transactions before t

/-- No watcher takes a notification, and a block that is mined can be appended. -/
def Undisturbed (lib : Stdlib) (s : MinerSystem) : Event → Prop
  | .watch watcher => ¬ (s.watchers.contains watcher = true ∧ 0 < s.pending)
  | .mine _ _ => ∀ candidate, s.phase = .mining candidate → Appends lib s.node candidate
  | .validate _ _ => True
  | .add _ => True
  | .notify => True
  | .blockMessage _ _ => True
  | .wake => True
  | .start _ => True
  | .clean _ => True

/-- Each notification taken has been made up for by a transaction that has left the mempool, or is
made up for by those that the miner has in hand. -/
def Earned (taken settled : Nat) (s : MinerSystem) : Prop :=
  match s.phase with
  | .idle => taken ≤ settled
  | .woken => taken ≤ settled + 1
  | .mining block | .cleaning block => taken ≤ settled + named s.node block.transactions
  | .hung => True

section Earned

variable {lib : Stdlib} {s s' : MinerSystem} {t u u' : Nat}

theorem Earned.of_le (earned : Earned t u s) (phase : s'.phase = s.phase) (more : u ≤ u')
    (enough : ∀ txs, u + named s.node txs ≤ u' + named s'.node txs) : Earned t u' s' := by
  unfold Earned at earned ⊢
  rw [phase]
  split
  · next idle =>
    rw [idle] at earned
    exact earned.trans more
  · next woken =>
    rw [woken] at earned
    exact earned.trans (Nat.add_le_add_right more 1)
  · next block mining =>
    rw [mining] at earned
    exact earned.trans (enough block.transactions)
  · next block cleaning =>
    rw [cleaning] at earned
    exact earned.trans (enough block.transactions)
  · trivial

/-- A received block takes no more of what is in hand than it settles. -/
theorem named_le_of_removed (order : TxOrder) (n : Node) (block txs : List Transaction) :
    named n txs ≤ named n block +
      named { n with mempool := removeTxsFromMempool order n.mempool block } txs := by
  unfold named
  rw [← Finset.card_union_add_card_inter]
  refine le_trans (Finset.card_le_card fun id mem => ?_) (Nat.le_add_right _ _)
  obtain ⟨held, inHand⟩ := Finset.mem_filter.mp mem
  rw [Finset.mem_union, Finset.mem_filter, Finset.mem_filter]
  by_cases gone : (block.map Transaction.id).contains id = true
  · exact .inl ⟨held, gone⟩
  · refine .inr ⟨?_, inHand⟩
    dsimp only
    rw [keys_removeTxsFromMempool]
    exact Finset.mem_filter.mpr ⟨held, gone⟩

theorem Earned.blockMessage (earned : Earned t u s) (amb : Ambient) (block : Block) :
    Earned t (u + s.settled lib (.blockMessage amb block))
      (s.step lib (.blockMessage amb block)) := by
  refine earned.of_le rfl (Nat.le_add_right _ _) fun txs => ?_
  simp only [settled, step]
  rcases (Node.step_transition lib s.node (.blockMessage amb block)).mempool_eq with
    ⟨same, -, none⟩ | ⟨tx, accepts, -, -⟩ | ⟨order, block', -, some, removed⟩
  · rw [none]
    unfold named
    rw [same]
    exact le_rfl
  · cases accepts
  · have fewer := named_le_of_removed order s.node block'.transactions txs
    rw [some]
    unfold named at fewer ⊢
    rw [removed]
    dsimp only at fewer ⊢
    omega

/-- An attempt on an empty mempool was not needed, and any other has a transaction in hand. -/
theorem Earned.start (balanced : Balanced t u s) (keyed : KeyedByID s.node.mempool)
    (earned : Earned t u s) (woken : s.phase = .woken) (amb : Ambient) :
    Earned t u (s.start amb) := by
  unfold MinerSystem.start
  split
  · next none =>
    have empty : s.node.mempool.size = 0 := by
      have values := congrArg List.length (FinMap.map_values keyed amb.txOrder)
      rw [List.length_map, FinMap.length_list] at values
      unfold getTxsFromMempool at none
      cases listed : FinMap.values amb.txOrder s.node.mempool with
      | nil => rw [← values, listed, List.length_nil]
      | cons tx txs =>
          rw [listed] at none
          cases none
    show t ≤ u
    unfold Balanced at balanced
    omega
  · next tx txs batch =>
    have held := keyed.get_of_mem_batch (batch.symm ▸ List.mem_cons_self)
    have positive : 0 < named s.node (tx :: txs) := by
      refine Finset.card_pos.mpr ⟨tx.id, Finset.mem_filter.mpr ⟨FinMap.mem_keys_of_get held, ?_⟩⟩
      exact List.contains_iff_mem.mpr List.mem_cons_self
    unfold Earned at earned
    rw [woken] at earned
    show t ≤ u + named s.node (tx :: txs)
    omega

/-- A block that can be appended is not refused. -/
theorem Appends.not_error {n n' : Node} {candidate : Block} (appends : Appends lib n candidate)
    {order : UTXOOrder} {challenge : Int} {err : GoString} :
    n.addBlockToBlockchain lib order (candidate.withChallenge lib challenge) ≠
      (n', .error err) := by
  intro refused
  have failed := (Node.addBlockToBlockchain_error_iff.mp refused).1
  unfold Node.applyBlock at failed
  split at failed
  · cases (Prod.mk.inj failed).2
  · obtain ⟨before, t, stops⟩ := exists_stopsAt_of_error (congrArg Prod.snd failed)
    exact appends.2 before t stops

theorem Earned.mine (earned : Earned t u s) (amb : Ambient) (polls : Nat) {candidate : Block}
    (mining : s.phase = .mining candidate) (running : s.stopped = false)
    (appends : Appends lib s.node candidate) :
    Earned t u (s.mine lib amb polls candidate) := by
  have same := Node.addBlockToBlockchain_mempool lib amb.utxoOrder s.node
  unfold MinerSystem.mine
  split
  · rwa [if_neg (by rw [running]; exact Bool.false_ne_true)]
  · next block found =>
    -- The block has the transactions of the candidate.
    obtain ⟨challenge, rfl, -⟩ := mineBlock_eq_some found
    rw [if_pos (appends.1 challenge)]
    split
    · next node eq =>
      have kept := (congrArg (·.1.mempool) eq).symm.trans (same _)
      unfold Earned at earned
      rw [mining] at earned
      show t ≤ u + named node candidate.transactions
      unfold named at earned ⊢
      rw [show node.mempool = s.node.mempool from kept]
      exact earned
    · next refused => exact (appends.not_error refused).elim
    · trivial

theorem Earned.step (balanced : Balanced t u s) (keyed : KeyedByID s.node.mempool)
    (running : s.stopped = false) (earned : Earned t u s) {e : Event}
    (undisturbed : s.Undisturbed lib e) :
    Earned (t + s.taken e) (u + s.settled lib e) (s.step lib e) := by
  cases e with
  | validate amb tx =>
      simp only [taken, settled, MinerSystem.step]
      split <;> exact earned
  | add tx =>
      refine earned.of_le ?_ (Nat.le_add_right _ _) fun txs => ?_
      · simp only [MinerSystem.step]
        split <;> rfl
      · refine Nat.add_le_add (Nat.le_add_right _ _) (Finset.card_le_card ?_)
        refine Finset.filter_subset_filter _ ?_
        simp only [MinerSystem.step]
        split
        · exact Finset.subset_insert _ _
        · exact Finset.Subset.refl _
  | notify =>
      simp only [taken, settled, MinerSystem.step]
      split <;> exact earned
  | blockMessage amb block => exact earned.blockMessage amb block
  | wake =>
      simp only [taken, settled, MinerSystem.step]
      split
      · next enabled =>
        unfold Earned at earned
        rw [enabled.1] at earned
        exact Nat.add_le_add_right earned 1
      · exact earned
  | start amb =>
      simp only [taken, settled, MinerSystem.step]
      split
      · next woken => exact Earned.start balanced keyed earned woken amb
      · exact earned
  | watch watcher =>
      have quiet : ¬ (s.watchers.contains watcher = true ∧ 0 < s.pending) := undisturbed
      simp only [taken, settled, MinerSystem.step]
      rw [if_neg quiet, if_neg quiet]
      exact earned
  | mine amb polls =>
      have appends : ∀ candidate, s.phase = .mining candidate → Appends lib s.node candidate :=
        undisturbed
      simp only [taken, settled, MinerSystem.step]
      cases phase : s.phase with
      | mining candidate => exact earned.mine amb polls phase running (appends candidate phase)
      | idle => exact earned
      | woken => exact earned
      | cleaning block => exact earned
      | hung => exact earned
  | clean order =>
      simp only [taken, settled, MinerSystem.step]
      cases phase : s.phase with
      | cleaning block =>
          unfold Earned at earned
          rw [phase] at earned
          exact earned
      | idle => exact earned
      | woken => exact earned
      | mining candidate => exact earned
      | hung => exact earned

/-- Only a watcher that takes a notification stops an attempt. -/
theorem stopped_step (running : s.stopped = false) {e : Event}
    (undisturbed : s.Undisturbed lib e) : (s.step lib e).stopped = false := by
  cases e with
  | watch watcher =>
      simp only [MinerSystem.step]
      rw [if_neg undisturbed]
      exact running
  | start amb =>
      simp only [MinerSystem.step]
      split
      · unfold MinerSystem.start
        split
        · exact running
        · rfl
      · exact running
  | mine amb polls =>
      simp only [MinerSystem.step]
      split
      · unfold MinerSystem.mine
        repeat' split
        all_goals exact running
      all_goals exact running
  | clean order =>
      simp only [MinerSystem.step]
      split <;> exact running
  | blockMessage amb block => exact running
  | validate amb tx =>
      simp only [MinerSystem.step]
      split <;> exact running
  | add tx =>
      simp only [MinerSystem.step]
      split <;> exact running
  | notify =>
      simp only [MinerSystem.step]
      split <;> exact running
  | wake =>
      simp only [MinerSystem.step]
      split <;> exact running

/-- Every transaction of the mempool stays under its own ID. -/
theorem keyed_step (keyed : KeyedByID s.node.mempool) (e : Event) :
    KeyedByID (s.step lib e).node.mempool := by
  cases e with
  | add tx =>
      simp only [MinerSystem.step]
      split
      · exact keyed.add tx
      · exact keyed
  | blockMessage amb block =>
      rcases (Node.step_transition lib s.node (.blockMessage amb block)).mempool_eq with
        ⟨same, -, -⟩ | ⟨tx, accepts, -, -⟩ | ⟨order, block', -, -, removed⟩
      · exact same ▸ keyed
      · cases accepts
      · exact removed ▸ keyed.remove order block'.transactions
  | start amb =>
      simp only [MinerSystem.step]
      split
      · exact (s.start_same amb).2.2 ▸ keyed
      · exact keyed
  | watch watcher =>
      simp only [MinerSystem.step]
      split
      · exact (s.watch_counts watcher).2.2 ▸ keyed
      · exact keyed
  | mine amb polls =>
      simp only [MinerSystem.step]
      split
      · next candidate _ => exact (s.mine_same lib amb polls candidate).2.2 ▸ keyed
      all_goals exact keyed
  | clean order =>
      simp only [MinerSystem.step]
      split
      · exact keyed.remove order _
      all_goals exact keyed
  | validate amb tx =>
      simp only [MinerSystem.step]
      split <;> exact keyed
  | notify =>
      simp only [MinerSystem.step]
      split <;> exact keyed
  | wake =>
      simp only [MinerSystem.step]
      split <;> exact keyed

theorem Earned.run (balanced : Balanced t u s) (keyed : KeyedByID s.node.mempool)
    (running : s.stopped = false) (earned : Earned t u s) {es : List Event}
    (undisturbed : Run.Always (MinerSystem.step lib) (Undisturbed lib) s es) :
    Earned (t + total lib taken s es) (u + total lib (settled lib) s es)
      (Run.run (MinerSystem.step lib) s es) := by
  induction es generalizing s t u with
  | nil => exact earned
  | cons e es ih =>
      rw [total_cons, total_cons, ← Nat.add_assoc, ← Nat.add_assoc]
      exact ih (balanced.step e) (keyed_step keyed e) (stopped_step running undisturbed.1)
        (Earned.step balanced keyed running earned undisturbed.1) undisturbed.2

end Earned

/-- Where no watcher takes a notification and the blocks mined can be appended, the notifications
taken have been made up for whenever the miner waits. -/
theorem settled_of_undisturbed (lib : Stdlib) (order : UTXOOrder) (bcStore : Store)
    (es : List Event)
    (undisturbed : Run.Always (step lib) (Undisturbed lib) (initial lib order bcStore) es)
    (idle : (Run.run (step lib) (initial lib order bcStore) es).phase = .idle) :
    total lib taken (initial lib order bcStore) es ≤
      total lib (settled lib) (initial lib order bcStore) es := by
  have keyed : KeyedByID (initial lib order bcStore).node.mempool := by
    unfold initial
    rw [Node.start_mempool]
    exact keyedByID_empty
  have earned := Earned.run (initial_balanced lib order bcStore) keyed rfl
    (show Earned 0 0 (initial lib order bcStore) from le_rfl) undisturbed
  unfold Earned at earned
  rw [idle, Nat.zero_add, Nat.zero_add] at earned
  exact earned

/-! ## Runs -/

/-- **No lost wake-up**, in every run in which no watcher takes a notification and the blocks mined
can be appended; and in any other run whenever the miner waits and no more notifications have been
taken so far than transactions have left the mempool. -/
theorem notified_of_settled (lib : Stdlib) (order : UTXOOrder) (bcStore : Store) (es : List Event)
    (spared : Run.Always (step lib) (Undisturbed lib) (initial lib order bcStore) es ∨
      ((Run.run (step lib) (initial lib order bcStore) es).phase = .idle →
        total lib taken (initial lib order bcStore) es ≤
          total lib (settled lib) (initial lib order bcStore) es)) :
    (Run.run (step lib) (initial lib order bcStore) es).Notified := by
  intro idle present sent
  have balanced := (initial_balanced lib order bcStore).run lib es
  have positive : 0 < (Run.run (step lib) (initial lib order bcStore) es).node.mempool.size :=
    Finset.card_pos.mpr present
  have enough : total lib taken (initial lib order bcStore) es ≤
      total lib (settled lib) (initial lib order bcStore) es := by
    rcases spared with undisturbed | made
    · exact settled_of_undisturbed lib order bcStore es undisturbed idle
    · exact made idle
  unfold Balanced at balanced
  omega

/-! ## Runs with a stopped attempt -/

/-- The handler runs through for a transaction. -/
def submit (tx : Transaction) : List Event :=
  [.validate (sampleAmbient 0) tx, .add tx, .notify]

/-- An attempt for the first registration; the watcher takes the notification of the second one and
stops it. -/
def stoppedAttempt (tx tx' : Transaction) : List Event :=
  submit tx ++ [.wake, .start (sampleAmbient 0)] ++ submit tx' ++
    [.watch ⟨0, false⟩, .mine (sampleAmbient 0) 0]

/-- Both registrations wait, and no notification is pending. -/
theorem stoppedAttempt_not_notified :
    ¬ (Run.run (step (sampleLib [])) (initial (sampleLib []) .sorted sampleStore)
      (stoppedAttempt claim1 claim2)).Notified := by
  intro notified
  have pending := notified (by decide +kernel) ⟨claim1.id, by decide +kernel⟩ (by decide +kernel)
  revert pending
  decide +kernel

def registration (id domainName owner : String) : Transaction :=
  sampleTx .nameNew id .zero (sampleUTXO domainName owner 10)

/-- The JSON text of a registration. -/
def registrationText (tx : Transaction) : Bytes :=
  str "\x7b\"ID\":\"" ++ tx.id ++ str "\",\"Type\":\"name_new\",\"Input\":\x7b\"DomainName\":" ++
    str "\"\",\"IP\":\"\",\"Owner\":\"\",\"Expiration\":\"0001-01-01T00:00:00Z\"\x7d,\"Output\":" ++
    str "\x7b\"DomainName\":\"" ++ tx.output.domainName ++
    str "\",\"IP\":\"192.168.1.1\",\"Owner\":\"" ++ tx.output.owner ++
    str "\",\"Expiration\":\"1970-01-01T00:00:00.00000001Z\"\x7d,\"PlainDomain\":\"" ++
    tx.plainDomain ++ str "\",\"Salt\":\"\",\"HashedDomain\":\"\",\"Fees\":1\x7d"

/-- Three registrations whose block meets the target with the first challenge. -/
def registrations : List Transaction :=
  [registration "tx2149" "example.com" "owner1", registration "tx3000" "example.net" "owner2",
    registration "tx4103" "example.org" "owner3"]

/-- SHA-256 of the preimage of their block. -/
def batchHash : Digest :=
  ⟨[0, 0, 133, 218, 18, 16, 253, 24, 198, 19, 10, 186, 156, 178, 71, 114, 115, 119, 79, 67, 128,
    209, 197, 90, 184, 109, 66, 108, 71, 229, 183, 229], by decide⟩

def batchBlock : Block := ⟨batchHash.1, genesisHash.1, 2, 0, registrations⟩

def batchJson (block : Block) : Option Bytes :=
  if block.transactions = registrations then
    some (blockJson "AACF2hIQ/RjGEwq6nLJHcnN3T0OA0cVauG1CbEflt+U="
      "lZrw+ZHQJvEB+ENtaBYs5iOlyUPdqSFnARv/vgaFYd8=" "2"
      ([44].intercalate (registrations.map registrationText)))
  else minersJson block

/-- The standard library on the values of a run that mines the three registrations together. -/
def batchLib : Stdlib where
  sha256 data :=
    if data = lastBlockKey then genesisParent
    else if data = str "0" ++ (registrations.map registrationText).flatten ++ genesisHash.1 then
      batchHash
    else genesisHash
  marshalTransaction tx := some (registrationText tx)
  marshalBlock := batchJson
  unmarshalBlock data := [sampleGenesis, batchBlock].find? fun b => batchJson b = some data

/-- All three registrations wait when the miner wakes, and are mined in one block. -/
def together : List Event :=
  registrations.flatMap submit ++
    [.wake, .start (sampleAmbient 0), .mine (sampleAmbient 0) 1, .clean .sorted] ++
    submit (registration "tx5000" "example.edu" "owner4")

theorem undisturbed_together :
    Run.Always (step batchLib) (Undisturbed batchLib) (initial batchLib .sorted sampleStore)
      together := by
  refine ⟨trivial, trivial, trivial, trivial, trivial, trivial, trivial, trivial, trivial, trivial,
    trivial, fun candidate mining => ?_, trivial, trivial, trivial, trivial, trivial⟩
  have started : (Run.run (step batchLib) (initial batchLib .sorted sampleStore)
      (together.take 11)).phase = .mining ⟨[], genesisHash.1, 2, 0, registrations⟩ := by
    decide +kernel
  cases mining.symm.trans started
  refine ⟨fun challenge => ?_, fun before t stops => ?_⟩
  · unfold batchLib batchJson
    exact congrArg Option.isSome (if_pos rfl)
  · -- Registrations consume nothing.
    have mem : t ∈ registrations := by
      obtain ⟨⟨after, split⟩, -⟩ := stops
      rw [show registrations = before ++ t :: after from split]
      exact List.mem_append_right before List.mem_cons_self
    have free : ∀ t ∈ registrations, t.consumes = false := by decide +kernel
    have consumes : t.consumes = true := stops.2.1.1
    rw [free t mem] at consumes
    cases consumes

/-- After an attempt that was stopped the third registration wakes the miner, and all three are
mined in one block: two notifications for the miner and one for a watcher have settled three. -/
def recovered : List Event :=
  stoppedAttempt (registration "tx2149" "example.com" "owner1")
      (registration "tx3000" "example.net" "owner2") ++
    submit (registration "tx4103" "example.org" "owner3") ++
    [.wake, .start (sampleAmbient 0), .mine (sampleAmbient 0) 1, .clean .sorted] ++
    submit (registration "tx5000" "example.edu" "owner4")

/-- The next registration is not left waiting after either run. -/
theorem notified_recovered :
    let s := Run.run (step batchLib) (initial batchLib .sorted sampleStore) together
    let s' := Run.run (step batchLib) (initial batchLib .sorted sampleStore) recovered
    (s.phase = .idle ∧ s.node.mempool.size = 1 ∧ s.sending = 0 ∧ s.Notified) ∧
      s'.phase = .idle ∧ s'.node.mempool.size = 1 ∧ s'.sending = 0 ∧ s'.Notified := by
  intro s s'
  have ends : s.phase = .idle ∧ s.node.mempool.size = 1 ∧ s.sending = 0 := by decide +kernel
  have ends' : s'.phase = .idle ∧ s'.node.mempool.size = 1 ∧ s'.sending = 0 := by decide +kernel
  refine ⟨⟨ends.1, ends.2.1, ends.2.2, ?_⟩, ends'.1, ends'.2.1, ends'.2.2, ?_⟩
  · exact notified_of_settled batchLib .sorted sampleStore together (.inl undisturbed_together)
  · exact notified_of_settled batchLib .sorted sampleStore recovered
      (.inr fun _ => by decide +kernel)

end MinerSystem

end Peerster
