import Peerster.Chain.Stored

/-!
# The links between stored blocks

`PrintAllNonces` follows `PrevBlockHash` from block to block and stops where there is no block, or
at a block it takes for genesis.  Keys and links come from received blocks, and nothing relates the
one to the other, so the walk can come back to a block it has seen; then it never ends.  It ends for
every appended block exactly when no appended block leads back to itself (`walkEnds_iff`).
-/

namespace Peerster

open PointerWalk

/-- What the walk relies on of the JSON encoding of blocks: a text is not empty, and decodes to a
block with the same parent. -/
def ParentsDecode (lib : Stdlib) : Prop :=
  ∀ block data, lib.marshalBlock block = some data →
    data ≠ [] ∧ ∃ block', lib.unmarshalBlock data = some block' ∧
      block'.prevBlockHash = block.prevBlockHash

/-- The key of the parent of the block stored under a key.  `LastBlockKey` holds no block. -/
def link (lib : Stdlib) (bcStore : Store) (key : GoString) : Option GoString :=
  if key = lastBlockKey then none else nextKey lib bcStore key

/-- No chain of stored blocks leads back to where it started. -/
def Acyclic (lib : Stdlib) (bcStore : Store) : Prop := ∀ key, Ends (link lib bcStore) key

/-- The walk of `PrintAllNonces` visits no block twice. -/
def VisitsOnce (lib : Stdlib) (bcStore : Store) : Prop :=
  ∀ lastHash, bcStore.get lastBlockKey = some lastHash →
    ∀ i j key, after (nextKey lib bcStore) i (hexEncode lastHash) = some key →
      after (nextKey lib bcStore) j (hexEncode lastHash) = some key → i = j

/-- The block is stored, and following the links from its parent leads to its own key. -/
def LeadsBack (lib : Stdlib) (bcStore : Store) (block : Block) : Prop :=
  (lib.marshalBlock block).isSome = true ∧ bcStore.takes (hexEncode block.hash) = true ∧
    ∃ parent, block.parentHash = some parent ∧
      Reaches (link lib bcStore) (hexEncode parent) (hexEncode block.hash)

/-! ## Keys of parents -/

section Keys

variable {lib : Stdlib} {s : Store} {block : Block}

theorem not_zeros_of_parentHash {parent : Bytes} (found : block.parentHash = some parent) :
    isAllZeros parent = false := by
  unfold Block.parentHash at found
  split at found
  · cases found
  · next proper =>
    cases found
    simpa using fun zeros => proper (.inr zeros)

theorem parentHash_congr {block block' : Block}
    (same : block'.prevBlockHash = block.prevBlockHash) :
    block'.parentHash = block.parentHash := by
  simp only [Block.parentHash, same]

theorem exists_hash_of_nextKey {key key' : GoString} (edge : nextKey lib s key = some key') :
    ∃ hash, isAllZeros hash = false ∧ key' = hexEncode hash := by
  unfold nextKey at edge
  obtain ⟨hash, parent, rfl⟩ := Option.map_eq_some_iff.mp edge
  obtain ⟨block, -, found⟩ := Option.bind_eq_some_iff.mp parent
  exact ⟨hash, not_zeros_of_parentHash found, rfl⟩

/-- A hash that is not all zeros is not stored under `LastBlockKey`. -/
theorem key_ne_lastBlockKey {hash : Bytes} (proper : isAllZeros hash = false) :
    hexEncode hash ≠ lastBlockKey := by
  intro same
  rw [hexEncode_eq_lastBlockKey_iff.mp same] at proper
  revert proper
  decide

theorem link_of_ne {key : GoString} (off : key ≠ lastBlockKey) :
    link lib s key = nextKey lib s key := if_neg off

theorem link_lastBlockKey : link lib s lastBlockKey = none := if_pos rfl

/-- Walks from the key of a parent visit keys of parents. -/
theorem exists_hash_of_after_link {hash : Bytes} {n : Nat} {key : GoString}
    (proper : isAllZeros hash = false) (visits : after (link lib s) n (hexEncode hash) = some key) :
    ∃ hash', isAllZeros hash' = false ∧ key = hexEncode hash' := by
  induction n generalizing hash with
  | zero =>
      cases visits
      exact ⟨hash, proper, rfl⟩
  | succ n ih =>
      obtain ⟨key', edge, rest⟩ := Option.bind_eq_some_iff.mp visits
      rw [link_of_ne (key_ne_lastBlockKey proper)] at edge
      obtain ⟨hash', proper', rfl⟩ := exists_hash_of_nextKey edge
      exact ih proper' rest

/-- From the key of a parent the walk follows the links. -/
theorem after_nextKey_eq_after_link {hash : Bytes} (proper : isAllZeros hash = false) (n : Nat) :
    after (nextKey lib s) n (hexEncode hash) = after (link lib s) n (hexEncode hash) := by
  refine after_congr fun m _ key visits => ?_
  obtain ⟨hash', proper', rfl⟩ := exists_hash_of_after_link proper visits
  exact (link_of_ne (key_ne_lastBlockKey proper')).symm

/-- A block that leads back to itself has a proper hash. -/
theorem LeadsBack.not_zeros (back : LeadsBack lib s block) : isAllZeros block.hash = false := by
  obtain ⟨-, -, parent, found, n, visits⟩ := back
  obtain ⟨hash, proper, same⟩ := exists_hash_of_after_link (not_zeros_of_parentHash found) visits
  rw [hexEncode_injective same]
  exact proper

/-- When the links have no cycle, every walk ends. -/
theorem Acyclic.ends_nextKey (acyclic : Acyclic lib s) (key : GoString) :
    Ends (nextKey lib s) key := by
  cases edge : nextKey lib s key with
  | none => exact ⟨1, by simp only [after, edge, Option.bind_none]⟩
  | some key' =>
      obtain ⟨hash, proper, rfl⟩ := exists_hash_of_nextKey edge
      obtain ⟨n, ended⟩ := acyclic (hexEncode hash)
      refine ⟨n + 1, ?_⟩
      simp only [after, edge, Option.bind_some]
      exact (after_nextKey_eq_after_link proper n).trans ended

theorem Acyclic.visitsOnce (acyclic : Acyclic lib s) : VisitsOnce lib s :=
  fun _ _ _ _ _ first again => (acyclic.ends_nextKey _).eq_of_visits first again

theorem Acyclic.printAllNonces_ne_none (acyclic : Acyclic lib s) : printAllNonces lib s ≠ none := by
  intro endless
  obtain ⟨lastHash, -, -, never⟩ := (printAllNonces_eq_none_iff lib s).mp endless
  obtain ⟨n, ended⟩ := acyclic.ends_nextKey (hexEncode lastHash)
  exact (walk_eq_none_iff lib s n lastHash).mp (never n) ended

end Keys

/-! ## Appending a block -/

namespace Node

section Append

variable {lib : Stdlib} {s : Store} {block : Block}

theorem link_storeBlock_of_ne (lib : Stdlib) (s : Store) (block : Block) (key : GoString)
    (off : key ≠ hexEncode block.hash) :
    link lib (storeBlock lib s block) key = link lib s key := by
  unfold link
  split
  · rfl
  · next off' =>
    unfold nextKey
    rw [blockAt_storeBlock_of_ne off off']

/-- The link of an appended block is its parent. -/
theorem link_storeBlock_self (parents : ParentsDecode lib)
    (fits : s.takes (hexEncode block.hash) = true) (off : hexEncode block.hash ≠ lastBlockKey) :
    link lib (storeBlock lib s block) (hexEncode block.hash) =
      if (lib.marshalBlock block).isSome then block.parentHash.map hexEncode else none := by
  have stored := storeBlock_data_self lib fits off
  rw [link_of_ne off]
  unfold nextKey
  cases encoded : lib.marshalBlock block with
  | none =>
      rw [encoded] at stored
      rw [blockAt_of_empty stored]
      rfl
  | some data =>
      rw [encoded] at stored
      obtain ⟨filled, block', decoded, same⟩ := parents block data encoded
      rw [blockAt_of_data stored filled, Option.getD_some, decoded, Option.bind_some,
        parentHash_congr same]
      rfl

/-- Appending a block keeps the links free of cycles unless the block leads back to itself. -/
theorem acyclic_storeBlock (parents : ParentsDecode lib) (acyclic : Acyclic lib s)
    (away : ¬ LeadsBack lib s block) : Acyclic lib (storeBlock lib s block) := by
  refine (ends_update_iff (link_storeBlock_of_ne lib s block) acyclic).mpr fun p edge back => ?_
  by_cases last : hexEncode block.hash = lastBlockKey
  · rw [last, link_lastBlockKey] at edge
    cases edge
  · by_cases fits : s.takes (hexEncode block.hash) = true
    · rw [link_storeBlock_self parents fits last] at edge
      split at edge
      · next encoded =>
        obtain ⟨parent, found, rfl⟩ := Option.map_eq_some_iff.mp edge
        exact away ⟨encoded, fits, parent, found, back⟩
      · cases edge
    · -- the store refuses the key: the link is an old one
      have same := Store.get_congr (storeBlock_backend lib s block)
        (storeBlock_data_refused lib fits last)
      have old : link lib s (hexEncode block.hash) = some p := by
        rw [← edge, link_of_ne last, link_of_ne last]
        simp only [nextKey, blockAt_congr same]
      obtain ⟨n, arrives⟩ := back
      have again : after (link lib s) (n + 1) (hexEncode block.hash) =
          some (hexEncode block.hash) := by
        simpa only [after, old, Option.bind_some] using arrives
      have never : 0 = n + 1 := (acyclic _).eq_of_visits rfl again
      cases never

/-- After a block that leads back to itself the walk never ends. -/
theorem printAllNonces_of_leadsBack (parents : ParentsDecode lib) (acyclic : Acyclic lib s)
    (back : LeadsBack lib s block) : printAllNonces lib (storeBlock lib s block) = none := by
  have proper := back.not_zeros
  have off := key_ne_lastBlockKey proper
  have filled : block.hash ≠ [] := by
    intro vacant
    rw [vacant] at proper
    cases proper
  refine (printAllNonces_eq_none_iff lib _).mpr
    ⟨block.hash, storeBlock_get_last filled, filled, fun fuel => ?_⟩
  rw [walk_eq_none_iff, after_nextKey_eq_after_link proper]
  intro ended
  obtain ⟨encoded, fits, parent, found, reaches⟩ := back
  have ends : Ends (link lib (storeBlock lib s block)) (hexEncode block.hash) := ⟨fuel, ended⟩
  rw [ends_update_self_iff (link_storeBlock_of_ne lib s block) acyclic] at ends
  refine ends (hexEncode parent) ?_ reaches
  rw [link_storeBlock_self parents fits off, if_pos encoded, found]
  rfl

end Append

/-! ## Runs -/

/-- The block an event applies, if any, is appended by a call that returns, and the walk that the
call makes visits no block twice. -/
def WalkEnds (lib : Stdlib) (n : Node) (e : Event) : Prop :=
  ∀ order block, n.applied lib e = some (order, block) →
    (addBlockToBlockchain lib order n block).2 ≠ .hangs ∧
      VisitsOnce lib (addBlockToBlockchain lib order n block).1.bcStore

/-- The block an event appends, if any, does not lead back to itself. -/
def LeadsOn (lib : Stdlib) (n : Node) (e : Event) : Prop :=
  ∀ block, n.appended lib e = some block → ¬ LeadsBack lib n.bcStore block

theorem walkEnds_step_iff {lib : Stdlib} {n : Node} (parents : ParentsDecode lib)
    (acyclic : Acyclic lib n.bcStore) (e : Event) : n.WalkEnds lib e ↔ n.LeadsOn lib e := by
  constructor
  · intro ends block appends back
    obtain ⟨order, applies, ok⟩ := appended_eq_some_iff.mp appends
    have hangs : (addBlockToBlockchain lib order n block).2 = .hangs :=
      addBlockToBlockchain_hangs_iff.mpr ⟨ok, printAllNonces_of_leadsBack parents acyclic back⟩
    exact (ends order block applies).1 hangs
  · intro leadsOn order block applies
    have store := congrArg Prod.fst (addBlockToBlockchain_chain lib order n block)
    by_cases ok : (applyBlock order n.utxoSet block).2 = none
    · have kept : Acyclic lib (storeBlock lib n.bcStore block) :=
        acyclic_storeBlock parents acyclic
          (leadsOn block (appended_eq_some_iff.mpr ⟨order, applies, ok⟩))
      refine ⟨fun hangs => ?_, ?_⟩
      · exact kept.printAllNonces_ne_none (addBlockToBlockchain_hangs_iff.mp hangs).2
      · have same : (addBlockToBlockchain lib order n block).1.bcStore =
            storeBlock lib n.bcStore block := by
          rw [if_pos ok] at store
          exact store
        rw [same]
        exact kept.visitsOnce
    · refine ⟨fun hangs => ok (addBlockToBlockchain_hangs_iff.mp hangs).1, ?_⟩
      have same : (addBlockToBlockchain lib order n block).1.bcStore = n.bcStore := by
        rw [if_neg ok] at store
        exact store
      rw [same]
      exact acyclic.visitsOnce

theorem step_acyclic {lib : Stdlib} {n : Node} {e : Event} (parents : ParentsDecode lib)
    (acyclic : Acyclic lib n.bcStore) (leadsOn : n.LeadsOn lib e) :
    Acyclic lib (n.step lib e).bcStore := by
  rw [step_bcStore]
  cases appends : n.appended lib e with
  | none => exact acyclic
  | some block => exact acyclic_storeBlock parents acyclic (leadsOn block appends)

theorem start_acyclic {lib : Stdlib} {bcStore : Store} (order : UTXOOrder)
    (parents : ParentsDecode lib) (acyclic : Acyclic lib bcStore)
    (genesis : ¬ LeadsBack lib bcStore (genesisBlock lib)) :
    Acyclic lib (start lib order (newPeer bcStore)).bcStore := by
  rw [start_bcStore]
  exact acyclic_storeBlock parents acyclic genesis

/-- **Every walk ends.**  In a run from a store without cycles, every call of `PrintAllNonces` ends
exactly when no appended block leads back to itself. -/
theorem walkEnds_iff (lib : Stdlib) (order : UTXOOrder) (bcStore : Store) (es : List Event)
    (parents : ParentsDecode lib) (acyclic : Acyclic lib bcStore)
    (genesis : ¬ LeadsBack lib bcStore (genesisBlock lib)) :
    Run.Always (step lib) (WalkEnds lib) (start lib order (newPeer bcStore)) es ↔
      Run.Always (step lib) (LeadsOn lib) (start lib order (newPeer bcStore)) es := by
  refine Run.always_congr (I := fun n : Node => Acyclic lib n.bcStore) ?_ ?_ ?_
  · exact start_acyclic order parents acyclic genesis
  · intro n e inv
    exact walkEnds_step_iff parents inv e
  · intro n e inv leadsOn
    exact step_acyclic parents inv leadsOn

theorem sampleLib_parentsDecode {blocks : List Block} (short : blocks.length < 255) :
    ParentsDecode (sampleLib blocks) := by
  intro block data encoded
  obtain ⟨filled, decoded⟩ := sampleLib_decodes short encoded
  exact ⟨filled, block, decoded, rfl⟩

theorem acyclic_sampleStore (lib : Stdlib) : Acyclic lib sampleStore := by
  intro key
  have unlinked : link lib sampleStore key = none := ite_self none
  exact ⟨1, by rw [after, unlinked, Option.bind_none]⟩

/-- The block of a registration, with a given hash and parent. -/
def linkBlock (hash prevBlockHash : Bytes) : Block :=
  ⟨hash, prevBlockHash, 2, 0,
    [sampleTx .nameNew "tx1" .zero (sampleUTXO "example.com" "owner1" 10)]⟩

/-- A block on top of the genesis block. -/
theorem walkEnds_onGenesis :
    let block := linkBlock [1] genesisHash.1
    Run.Always (step (sampleLib [block])) (WalkEnds (sampleLib [block]))
      (start (sampleLib [block]) .sorted (newPeer sampleStore)) (deliver [block]) := by
  intro block
  refine (walkEnds_iff (sampleLib [block]) .sorted sampleStore (deliver [block])
    (sampleLib_parentsDecode (by decide)) (acyclic_sampleStore _) ?_).mpr ⟨?_, trivial⟩
  · intro back
    obtain ⟨-, -, parent, found, reaches⟩ := back
    cases found
    exact not_reaches (m := 1) (by decide +kernel) (by decide +kernel) reaches
  · intro block' appends back
    have here : (start (sampleLib [block]) .sorted (newPeer sampleStore)).appended
        (sampleLib [block]) (.blockMessage (sampleAmbient 0) block) = some block := by
      decide +kernel
    cases here.symm.trans appends
    obtain ⟨-, -, parent, found, reaches⟩ := back
    have genesis : parent = genesisHash.1 := (Option.some.inj found).symm
    subst genesis
    exact not_reaches (m := 2) (by decide +kernel) (by decide +kernel) reaches

/-- A block that names itself as its parent: the listener never returns from the walk. -/
theorem ownParent_hangs :
    let block := linkBlock [1] [1]
    ¬ Run.Always (step (sampleLib [block])) (WalkEnds (sampleLib [block]))
      (start (sampleLib [block]) .sorted (newPeer sampleStore)) (deliver [block]) := by
  intro block always
  have applies : (start (sampleLib [block]) .sorted (newPeer sampleStore)).applied
      (sampleLib [block]) (.blockMessage (sampleAmbient 0) block) = some (.sorted, block) :=
    applied_blockMessage (by decide +kernel) (by decide +kernel)
  have returns := (always.1 .sorted block applies).1
  revert returns
  decide +kernel

end Node

end Peerster
