import Peerster.Chain.Linked
import Peerster.Chain.Replicas

/-!
# The chain of one miner

A node that receives transactions and mines, and receives no block, keeps its store a chain: every
block it appends is the candidate it created on top of its last block.
-/

namespace Peerster

namespace Node

/-- The nonces of a chain of a height, newest first. -/
def descending (height : Nat) : List Int := (List.range height).reverse.map fun i => (i : Int) + 1

theorem descending_succ (height : Nat) :
    descending (height + 1) = (height + 1 : Int) :: descending height := by
  simp [descending, List.range_succ]

/-- The node is on the chain of the blocks appended so far, which are numbered from 1 on, and its
candidate is on top of it. -/
structure Mines (lib : Stdlib) (n : Node) (tip : Bytes) (blocks : List Block) : Prop where
  onChain : n.OnChain lib tip blocks
  builds : n.Builds
  nonces : blocks.map Block.nonce = descending n.currentHeight

section Own

variable {lib : Stdlib} {n : Node} {e : Event} {tip : Bytes} {all blocks : List Block}

/-- An event of a node that receives no block. -/
def Event.Own (e : Event) : Prop := ∀ amb block, e ≠ .blockMessage amb block

theorem minedBlock_of_appended {block : Block} (own : e.Own)
    (appends : n.appended lib e = some block) : ∃ polls, n.minedBlock lib polls = some block := by
  obtain ⟨order, applies, -⟩ := appended_eq_some_iff.mp appends
  cases e with
  | transactionMessage amb tx => cases applies
  | startMining amb => cases applies
  | blockMessage amb block' => exact (own amb block' rfl).elim
  | finishMining amb polls => exact ⟨polls, minedBlock_of_applied applies⟩

/-- A step of a node that receives no block: nothing is appended, or a block on top of the chain. -/
theorem Mines.step (mines : n.Mines lib tip blocks) (own : e.Own) (faithful : Faithful lib all)
    (subset : blocks ⊆ all) (appends : ∀ block, n.appended lib e = some block → block ∈ all) :
    ∃ tip', (n.step lib e).Mines lib tip' ((n.appended lib e).toList ++ blocks) := by
  have builds : (n.step lib e).Builds :=
    mines.builds.step fun amb block same => (own amb block same).elim
  have chain := step_chain lib n e
  cases added : n.appended lib e with
  | none =>
      rw [added] at chain
      have height : (n.step lib e).currentHeight = n.currentHeight := congrArg Prod.snd chain
      exact ⟨tip, mines.onChain.quiet added, builds, height ▸ mines.nonces⟩
  | some block =>
      rw [added] at chain
      have height : (n.step lib e).currentHeight = n.currentHeight + 1 := congrArg Prod.snd chain
      obtain ⟨polls, mined⟩ := minedBlock_of_appended own added
      obtain ⟨parent, nonce, hash, filled⟩ := mines.builds.minedBlock mined
      rw [(mines.onChain.get_last faithful subset).2, Option.getD_some] at parent
      refine ⟨block.hash, ?_, builds, ?_⟩
      · exact mines.onChain.appends faithful subset (appends block added) added parent hash filled
      · show block.nonce :: blocks.map Block.nonce = _
        rw [height, descending_succ, nonce, mines.nonces]

/-- What holds of the blocks written and the node after `Start`, and is kept by every step as long
as the encoding and the hash are faithful to the blocks written, holds after every run. -/
theorem afterEvents_invariant {I : List Block → Node → Prop} (order : UTXOOrder) (bcStore : Store)
    {es : List Event} (own : ∀ e ∈ es, e.Own)
    (faithful : Faithful lib (genesisBlock lib ::
      appendedBlocks lib (start lib order (newPeer bcStore)) es))
    (started : Faithful lib [genesisBlock lib] →
      I [genesisBlock lib] (start lib order (newPeer bcStore)))
    (kept : ∀ written n e, e.Own → Faithful lib (written ++ (n.appended lib e).toList) →
      I written n → I (written ++ (n.appended lib e).toList) (n.step lib e)) :
    I (genesisBlock lib :: appendedBlocks lib (start lib order (newPeer bcStore)) es)
      (afterEvents lib order bcStore es) := by
  refine Run.run_collect_invariant_mem (I := fun h (n : Node) =>
    Faithful lib (genesisBlock lib :: h) → I (genesisBlock lib :: h) n) started ?_ faithful
  intro h n e mem inv faithful
  have shorter : genesisBlock lib :: h ⊆ genesisBlock lib :: (h ++ (n.appended lib e).toList) :=
    List.cons_subset_cons _ (List.subset_append_left _ _)
  exact kept (genesisBlock lib :: h) n e (own e mem) faithful (inv (faithful.mono shorter))

end Own

/-- **The chain of one miner.**  After every run of a node that starts on an empty store and
receives no block, the walk from the last block visits `currentHeight` blocks, numbered down to 1,
each under the hex of its own hash; the last of them is the genesis block, and its parent is not
stored. -/
theorem selfMined_chain (lib : Stdlib) (order : UTXOOrder) (backend : Backend) (es : List Event)
    (own : ∀ e ∈ es, e.Own)
    (faithful : Faithful lib (genesisBlock lib ::
      appendedBlocks lib (start lib order (newPeer ⟨backend, .empty⟩)) es)) :
    let n := afterEvents lib order ⟨backend, .empty⟩ es
    ∃ tip blocks, n.bcStore.get lastBlockKey = some tip ∧ Visits lib n.bcStore tip blocks ∧
      blocks.length = n.currentHeight ∧ blocks.map Block.nonce = descending n.currentHeight ∧
      blocks.getLast? = some (genesisBlock lib) ∧
      n.bcStore.get (hexEncode (genesisBlock lib).prevBlockHash) = none ∧
      printAllNonces lib n.bcStore = some (lines lib blocks) := by
  intro n
  have mines : ∃ tip, n.Mines lib tip (genesisBlock lib ::
      appendedBlocks lib (start lib order (newPeer ⟨backend, .empty⟩)) es).reverse := by
    refine afterEvents_invariant (I := fun written n => ∃ tip, n.Mines lib tip written.reverse)
      order ⟨backend, .empty⟩ own faithful ?_ ?_
    · intro faithful
      refine ⟨(genesisBlock lib).hash, ?_, .of_idle (start_mining lib order _), ?_⟩
      · exact start_onChain order faithful List.mem_cons_self rfl
      · rw [show (start lib order (newPeer ⟨backend, .empty⟩)).currentHeight = 1 from
          congrArg Prod.snd (start_chain lib order ⟨backend, .empty⟩)]
        rfl
    · rintro written n e own faithful ⟨tip, mines⟩
      obtain ⟨tip', mines'⟩ := mines.step own faithful
        (fun block inside => List.mem_append_left _ (List.mem_reverse.mp inside))
        fun block added => List.mem_append_right _ (Option.mem_toList.mpr added)
      refine ⟨tip', ?_⟩
      have same : (written ++ (n.appended lib e).toList).reverse =
          (n.appended lib e).toList ++ written.reverse := by
        cases n.appended lib e <;> simp
      rw [same]
      exact mines'
  obtain ⟨tip, mines⟩ := mines
  have subset := List.reverse_subset.mpr (List.Subset.refl (genesisBlock lib ::
    appendedBlocks lib (start lib order (newPeer ⟨backend, .empty⟩)) es))
  refine ⟨tip, _, (mines.onChain.get_last faithful subset).2,
    mines.onChain.chain.visits faithful subset, mines.onChain.height, mines.nonces,
    mines.onChain.genesis, ?_, mines.onChain.printAllNonces faithful subset⟩
  exact Store.get_of_data_none mines.onChain.chain.ends

/-- A registration is received and mined. -/
def mineClaim : List Event :=
  [.transactionMessage (sampleAmbient 0) claim1, .startMining (sampleAmbient 0),
    .finishMining (sampleAmbient 0) 1]

theorem appendedBlocks_mineClaim :
    genesisBlock minersLib ::
      appendedBlocks minersLib (start minersLib .sorted (newPeer ⟨.inmemory, .empty⟩)) mineClaim =
        [sampleGenesis, block1] := by
  decide +kernel

theorem faithful_minersLib : Faithful minersLib [sampleGenesis, block1] := by
  refine ⟨fun block mem => ?_, fun block mem t inside => ?_, by decide +kernel, by decide +kernel⟩
  · have encoded : ∀ block ∈ [sampleGenesis, block1], (minersLib.marshalBlock block).isSome ∧
        minersLib.marshalBlock block ≠ some [] ∧
        (minersLib.marshalBlock block).bind minersLib.unmarshalBlock = some block := by
      decide +kernel
    obtain ⟨some, filled, decoded⟩ := encoded block mem
    obtain ⟨data, text⟩ := Option.isSome_iff_exists.mp some
    rw [text] at filled decoded
    exact ⟨data, text, fun vacant => filled (by rw [vacant]), decoded⟩
  · have texts : ∀ block ∈ [sampleGenesis, block1], ∀ t ∈ block.transactions,
        minersLib.marshalTransaction t =
          some (123 :: (registrationJson "tx2149" "owner1").tail) := by
      decide +kernel
    exact ⟨_, texts block mem t inside⟩

/-- The chain of a node that has mined one registration. -/
theorem selfMined_chain_mineClaim :
    let n := afterEvents minersLib .sorted ⟨.inmemory, .empty⟩ mineClaim
    ∃ tip blocks, n.bcStore.get lastBlockKey = some tip ∧ Visits minersLib n.bcStore tip blocks ∧
      blocks.length = n.currentHeight ∧ blocks.map Block.nonce = descending n.currentHeight ∧
      blocks.getLast? = some (genesisBlock minersLib) ∧
      n.bcStore.get (hexEncode (genesisBlock minersLib).prevBlockHash) = none ∧
      printAllNonces minersLib n.bcStore = some (lines minersLib blocks) := by
  refine selfMined_chain minersLib .sorted .inmemory mineClaim ?_ ?_
  · intro e mem amb block same
    subst same
    simp [mineClaim] at mem
  · rw [appendedBlocks_mineClaim]
    exact faithful_minersLib

end Node

end Peerster
