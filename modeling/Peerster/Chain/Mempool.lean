import Peerster.Chain.SelfMined

/-!
# What becomes of an accepted transaction

The mempool is a map from IDs to transactions, and the blockchain store one from hashes to blocks;
the senders choose IDs and hashes.  A transaction that `handleTransactionMessage` has accepted
leaves the mempool when a block with a transaction of its ID is appended, or when another
transaction of its ID is accepted.  As long as IDs and hashes stand for what they name, it is in the
mempool or in a stored block (`accepted_kept`).
-/

namespace Peerster

namespace Node

/-- The transaction an event adds to the mempool. -/
def accepted (lib : Stdlib) (n : Node) (e : Event) : Option Transaction :=
  match e with
  | .transactionMessage amb tx =>
      if n.listening = true ∧ validateTransaction lib amb n.utxoSet tx = .ok () then some tx
      else none
  | .blockMessage _ _ => none
  | .startMining _ => none
  | .finishMining _ _ => none

/-- The block an event adds by a call that returns without error; its transactions leave the
mempool. -/
def confirmed (lib : Stdlib) (n : Node) (e : Event) : Option Block :=
  match n.applied lib e with
  | none => none
  | some (order, block) =>
      if (addBlockToBlockchain lib order n block).2 = .ok then some block else none

theorem confirmed_of_applied {lib : Stdlib} {n : Node} {e : Event} {order : UTXOOrder}
    {block : Block} (applies : n.applied lib e = some (order, block)) :
    n.confirmed lib e =
      if (addBlockToBlockchain lib order n block).2 = .ok then some block else none := by
  rw [confirmed, applies]

theorem appended_of_confirmed {lib : Stdlib} {n : Node} {e : Event} {block : Block}
    (confirms : n.confirmed lib e = some block) : n.appended lib e = some block := by
  unfold confirmed at confirms
  split at confirms
  · cases confirms
  · next order block' applies =>
    split at confirms
    · next ok =>
      cases confirms
      exact appended_eq_some_iff.mpr ⟨order, applies, (addBlockToBlockchain_ok_iff.mp ok).1⟩
    · cases confirms

/-- What an event does to the mempool: nothing, or it adds an accepted transaction, or it removes
those of a confirmed block. -/
theorem Transition.mempool_eq {lib : Stdlib} {n n' : Node} {e : Event}
    (transition : n.Transition lib e n') :
    (n'.mempool = n.mempool ∧ n.accepted lib e = none ∧ n.confirmed lib e = none) ∨
      (∃ tx, n.accepted lib e = some tx ∧ n.confirmed lib e = none ∧
        n'.mempool = n.mempool.add tx.id tx) ∨
      ∃ order block, n.accepted lib e = none ∧ n.confirmed lib e = some block ∧
        n'.mempool = removeTxsFromMempool order n.mempool block.transactions := by
  cases transition with
  | ignores idle refused _ =>
      refine .inl ⟨rfl, ?_, by rw [confirmed, idle]⟩
      cases e with
      | transactionMessage amb tx => exact if_neg (refused amb tx rfl)
      | blockMessage amb block => rfl
      | startMining amb => rfl
      | finishMining amb polls => rfl
  | accepts up valid => exact .inr (.inl ⟨_, if_pos ⟨up, valid⟩, rfl, rfl⟩)
  | starts _ _ => exact .inl ⟨rfl, rfl, rfl⟩
  | stops idle => exact .inl ⟨rfl, rfl, by rw [confirmed, idle]⟩
  | @applies _ _ order block txOrder applies _ mempool _ =>
      have received : n.accepted lib e = none := by
        cases e with
        | transactionMessage amb tx => cases applies
        | blockMessage amb block => rfl
        | startMining amb => rfl
        | finishMining amb polls => rfl
      have confirms := confirmed_of_applied applies
      by_cases ok : (addBlockToBlockchain lib order n block).2 = .ok
      · rw [if_pos ok] at mempool confirms
        exact .inr (.inr ⟨txOrder, block, received, confirms, mempool⟩)
      · rw [if_neg ok] at mempool confirms
        exact .inl ⟨mempool, received, confirms⟩

/-! ## Accepted transactions are kept -/

/-- A transaction is in the mempool or in a stored block. -/
def Kept (lib : Stdlib) (n : Node) (t : Transaction) : Prop :=
  (∃ id, n.mempool.get id = some t) ∨
    ∃ key block, key ≠ lastBlockKey ∧ blockAt lib n.bcStore key = some block ∧
      t ∈ block.transactions

/-- Every transaction accepted in a run from `n` is kept in every state from then on. -/
def KeepsAccepted (lib : Stdlib) (n : Node) (es : List Event) : Prop :=
  ∀ before e later after t, es = before ++ e :: (later ++ after) →
    (Run.run (step lib) n before).accepted lib e = some t →
      (Run.run (step lib) n (before ++ e :: later)).Kept lib t

/-- The transactions accepted in a run, in order. -/
def acceptedTxs (lib : Stdlib) (n : Node) (es : List Event) : List Transaction :=
  Run.collect (step lib) (fun n e => (n.accepted lib e).toList) n es

/-- The block can be stored under its hash and read back. -/
def Storable (lib : Stdlib) (bcStore : Store) (block : Block) : Prop :=
  bcStore.takes (hexEncode block.hash) = true ∧ hexEncode block.hash ≠ lastBlockKey ∧
    ∃ data, lib.marshalBlock block = some data ∧ data ≠ [] ∧ lib.unmarshalBlock data = some block

/-- In a run from `n`, an ID stands for one accepted transaction, a hash for one appended block, and
appended blocks can be stored. -/
structure Identified (lib : Stdlib) (n : Node) (es : List Event) : Prop where
  ids : ∀ t ∈ acceptedTxs lib n es,
    ∀ t' ∈ acceptedTxs lib n es ++ (appendedBlocks lib n es).flatMap Block.transactions,
      t'.id = t.id → t' = t
  hashes : ∀ block ∈ appendedBlocks lib n es, ∀ block' ∈ appendedBlocks lib n es,
    block'.hash = block.hash → block' = block
  storable : ∀ block ∈ appendedBlocks lib n es, Storable lib n.bcStore block

section Kept

variable {lib : Stdlib} {n : Node} {e : Event} {t : Transaction} {blocks : List Block}

theorem blockAt_storeBlock_self {s : Store} {block : Block} (storable : Storable lib s block) :
    blockAt lib (storeBlock lib s block) (hexEncode block.hash) = some block := by
  obtain ⟨fits, off, data, encoded, filled, decoded⟩ := storable
  have stored := storeBlock_data_self lib fits off
  rw [encoded] at stored
  rw [blockAt_of_data stored filled, Option.getD_some, decoded]

theorem step_backend (lib : Stdlib) (n : Node) (e : Event) :
    (n.step lib e).bcStore.backend = n.bcStore.backend := by
  rw [step_bcStore]
  cases n.appended lib e with
  | none => rfl
  | some block => exact storeBlock_backend lib n.bcStore block

theorem Storable.congr {s s' : Store} {block : Block} (storable : Storable lib s block)
    (backend : s'.backend = s.backend) : Storable lib s' block := by
  refine ⟨?_, storable.2⟩
  rw [← storable.1]
  simp only [Store.takes, backend]

/-- The transaction is in the mempool under its ID, or in one of the blocks, stored under its
hash. -/
def Retains (lib : Stdlib) (blocks : List Block) (n : Node) (t : Transaction) : Prop :=
  n.mempool.get t.id = some t ∨
    ∃ block ∈ blocks, t ∈ block.transactions ∧
      blockAt lib n.bcStore (hexEncode block.hash) = some block

/-- A stored block stays stored, as long as its hash stands for it. -/
theorem blockAt_step {block : Block} (storable : Storable lib n.bcStore block)
    (same : ∀ block', n.appended lib e = some block' → block'.hash = block.hash → block' = block)
    (stored : blockAt lib n.bcStore (hexEncode block.hash) = some block) :
    blockAt lib (n.step lib e).bcStore (hexEncode block.hash) = some block := by
  rw [step_bcStore]
  cases appends : n.appended lib e with
  | none => exact stored
  | some block' =>
      dsimp only
      by_cases hash : block'.hash = block.hash
      · rw [same block' appends hash]
        exact blockAt_storeBlock_self storable
      · rw [blockAt_storeBlock_of_ne (fun key => hash (hexEncode_injective key).symm) storable.2.1]
        exact stored

theorem Retains.step (retains : n.Retains lib blocks t)
    (ids : ∀ t', n.accepted lib e = some t' → t'.id = t.id → t' = t)
    (idsIn : ∀ block ∈ blocks, ∀ t' ∈ block.transactions, t'.id = t.id → t' = t)
    (hashes : ∀ block ∈ blocks, ∀ block' ∈ blocks, block'.hash = block.hash → block' = block)
    (storable : ∀ block ∈ blocks, Storable lib n.bcStore block)
    (among : ∀ block, n.appended lib e = some block → block ∈ blocks) :
    (n.step lib e).Retains lib blocks t := by
  rcases retains with waits | ⟨block, mem, inside, stored⟩
  · rcases (step_transition lib n e).mempool_eq with ⟨same, -, -⟩ | ⟨tx, accepts, -, added⟩ |
      ⟨order, block, -, confirms, removed⟩
    · exact .inl (same ▸ waits)
    · refine .inl ?_
      rw [added]
      by_cases id : tx.id = t.id
      · rw [ids tx accepts id, FinMap.get_add_self]
      · rw [FinMap.get_add_of_ne _ _ (fun same => id same.symm)]
        exact waits
    · by_cases named : t.id ∈ block.transactions.map Transaction.id
      · obtain ⟨t', inside, id⟩ := List.mem_map.mp named
        have appends := appended_of_confirmed confirms
        have mem := among block appends
        cases idsIn block mem t' inside id
        refine .inr ⟨block, mem, inside, ?_⟩
        rw [step_bcStore, appends]
        exact blockAt_storeBlock_self (storable block mem)
      · refine .inl ?_
        rw [removed, get_removeTxsFromMempool, if_neg (by simpa using named)]
        exact waits
  · exact .inr ⟨block, mem, inside, blockAt_step (storable block mem)
      (fun block' appends => hashes block mem block' (among block' appends)) stored⟩

theorem run_backend (lib : Stdlib) (n : Node) (es : List Event) :
    (Run.run (step lib) n es).bcStore.backend = n.bcStore.backend :=
  Run.run_invariant (I := fun m : Node => m.bcStore.backend = n.bcStore.backend) rfl
    (fun m e same => (step_backend lib m e).trans same) es

/-- What is held after a part of a run is held after a longer part. -/
theorem Retains.run {before later after : List Event}
    (retains : (Run.run (Node.step lib) n before).Retains lib
      (appendedBlocks lib n (before ++ (later ++ after))) t)
    (identified : Identified lib n (before ++ (later ++ after)))
    (mem : t ∈ acceptedTxs lib n (before ++ (later ++ after))) :
    (Run.run (Node.step lib) n (before ++ later)).Retains lib
      (appendedBlocks lib n (before ++ (later ++ after))) t := by
  have within : ∀ {α : Type} {out : Node → Event → List α} {x : α},
      x ∈ Run.collect (Node.step lib) out (Run.run (Node.step lib) n before) later →
        x ∈ Run.collect (Node.step lib) out n (before ++ (later ++ after)) := by
    intro α out x inside
    rw [Run.collect_append, Run.collect_append]
    exact List.mem_append_right _ (List.mem_append_left _ inside)
  have accepts := Run.always_of_collect (R := fun t' : Transaction => t'.id = t.id → t' = t)
    fun t' inside => identified.ids t mem t' (List.mem_append_left _ (within inside))
  have appends := Run.always_of_collect
    (R := fun block => block ∈ appendedBlocks lib n (before ++ (later ++ after)))
    fun block inside => within inside
  rw [Run.run_append]
  refine ((accepts.and appends).run_invariant
    (I := fun m : Node => m.bcStore.backend = n.bcStore.backend ∧ m.Retains lib
      (appendedBlocks lib n (before ++ (later ++ after))) t)
    ⟨run_backend lib n before, retains⟩ ?_).2
  intro m e inv conditions
  refine ⟨(step_backend lib m e).trans inv.1, inv.2.step ?_ ?_ identified.hashes ?_ ?_⟩
  · intro t' accepted
    exact conditions.1 t' (by rw [accepted]; exact List.mem_singleton_self t')
  · intro block inside t' among
    exact identified.ids t mem t'
      (List.mem_append_right _ (List.mem_flatMap.mpr ⟨block, inside, among⟩))
  · intro block inside
    exact (identified.storable block inside).congr inv.1
  · intro block appended
    exact conditions.2 block (by rw [appended]; exact List.mem_singleton_self block)

end Kept

/-- **Accepted transactions are kept.**  In a run in which IDs and hashes stand for what they name,
every accepted transaction is from then on in the mempool or in a stored block. -/
theorem accepted_kept (lib : Stdlib) (order : UTXOOrder) (bcStore : Store) (es : List Event)
    (identified : Identified lib (start lib order (newPeer bcStore)) es) :
    KeepsAccepted lib (start lib order (newPeer bcStore)) es := by
  intro before e later after t split accepts
  have shape : es = (before ++ [e]) ++ (later ++ after) := by rw [split]; simp
  rw [shape] at identified
  have mem : t ∈ acceptedTxs lib (start lib order (newPeer bcStore))
      ((before ++ [e]) ++ (later ++ after)) := by
    unfold acceptedTxs
    rw [Run.collect_append, Run.collect_append]
    refine List.mem_append_left _ (List.mem_append_right _ ?_)
    simp [Run.collect, accepts]
  have first : (Run.run (step lib) (start lib order (newPeer bcStore)) (before ++ [e])).Retains lib
      (appendedBlocks lib (start lib order (newPeer bcStore))
        ((before ++ [e]) ++ (later ++ after))) t := by
    rw [Run.run_append]
    refine .inl ?_
    rcases (step_transition lib
        (Run.run (step lib) (start lib order (newPeer bcStore)) before) e).mempool_eq with
      ⟨-, none, -⟩ | ⟨tx, here, -, added⟩ | ⟨-, -, none, -, -⟩
    · rw [accepts] at none
      cases none
    · cases accepts.symm.trans here
      rw [Run.run_cons, Run.run_nil, added, FinMap.get_add_self]
    · rw [accepts] at none
      cases none
  have kept := first.run identified mem
  rw [show before ++ e :: later = (before ++ [e]) ++ later by simp]
  rcases kept with waits | ⟨block, inside, holds, stored⟩
  · exact .inl ⟨t.id, waits⟩
  · exact .inr ⟨_, block, (identified.storable block inside).2.1, stored, holds⟩

/-- An accepted registration is mined. -/
theorem accepted_kept_mineClaim :
    KeepsAccepted minersLib (start minersLib .sorted (newPeer sampleStore)) mineClaim := by
  have accepted : acceptedTxs minersLib (start minersLib .sorted (newPeer sampleStore)) mineClaim =
      [claim1] := by
    decide +kernel
  have appended :
      appendedBlocks minersLib (start minersLib .sorted (newPeer sampleStore)) mineClaim =
        [block1] := (List.cons.inj appendedBlocks_mineClaim).2
  refine accepted_kept minersLib .sorted sampleStore mineClaim ⟨?_, ?_, ?_⟩
  · rw [accepted, appended]
    decide +kernel
  · rw [appended]
    decide +kernel
  · rw [appended]
    intro block mem
    have size : ∀ block ∈ [block1], block.hash.length = 32 := by decide +kernel
    have key : ∀ block ∈ [block1], hexEncode block.hash ≠ lastBlockKey := by decide +kernel
    exact ⟨takes_digest _ (size block mem), key block mem,
      faithful_minersLib.decodes block (List.mem_cons_of_mem _ mem)⟩

/-- A registration with the ID `tx1`. -/
def twin (domainName owner : String) : Transaction :=
  sampleTx .nameNew "tx1" .zero (sampleUTXO domainName owner 10)

/-- Of two accepted transactions with one ID the first is lost. -/
theorem twin_lost :
    ¬ KeepsAccepted (sampleLib []) (start (sampleLib []) .sorted (newPeer sampleStore))
      [.transactionMessage (sampleAmbient 0) (twin "example.com" "owner1"),
        .transactionMessage (sampleAmbient 0) (twin "example.org" "owner2")] := by
  intro keeps
  let n := Run.run (step (sampleLib [])) (start (sampleLib []) .sorted (newPeer sampleStore))
    [.transactionMessage (sampleAmbient 0) (twin "example.com" "owner1"),
      .transactionMessage (sampleAmbient 0) (twin "example.org" "owner2")]
  have kept : n.Kept (sampleLib []) (twin "example.com" "owner1") :=
    keeps [] _ [_] [] _ rfl (by decide +kernel)
  rcases kept with ⟨id, waits⟩ | ⟨key, block, off, found, mem⟩
  · have listed : twin "example.com" "owner1" ∈ FinMap.values .sorted n.mempool :=
      FinMap.mem_values.mpr ⟨id, waits⟩
    revert listed
    decide +kernel
  · have vacant : ∀ key ∈ n.bcStore.data.keys, key ≠ lastBlockKey →
        (blockAt (sampleLib []) n.bcStore key).all (·.transactions.isEmpty) = true := by
      decide +kernel
    have unfilled := vacant key (mem_keys_of_blockAt found) off
    rw [found, Option.all_some, List.isEmpty_iff] at unfilled
    rw [unfilled] at mem
    cases mem

end Node

end Peerster
