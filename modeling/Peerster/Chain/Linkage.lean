import Peerster.Chain.SelfMined

/-!
# Linkage in a network

A miner builds on the last block it has when its attempt starts, and a received block is appended
whatever its parent; nothing in the code compares `PrevBlockHash` with `LastBlockKey`.  A journal
records what every node has appended, and every mined block with what its miner had appended before.
Blocks are linked when every node that appends a received block has appended the same blocks as its
miner had, and no received block is appended during an attempt (`linkage_of_common_history`).
-/

namespace Peerster

namespace Network

variable {k : Nat}

/-- The block a step appends.  A block message that is not in flight does not happen. -/
def appended (lib : Stdlib) (net : Network k) (a : Action k) : Option Block :=
  match a.2 with
  | .blockMessage _ block =>
      if net.bus.inFlight.contains (a.1, block) then (net.nodes a.1).appended lib a.2 else none
  | .finishMining _ _ => (net.nodes a.1).appended lib a.2
  | .transactionMessage _ _ => none
  | .startMining _ => none

/-- The block a step appends, if any, has the value of `LastBlockKey` as its parent. -/
def ExtendsLast (lib : Stdlib) (net : Network k) (a : Action k) : Prop :=
  ∀ block, net.appended lib a = some block →
    (net.nodes a.1).bcStore.get lastBlockKey = some block.prevBlockHash

/-- The walk from the last block of a node visits `currentHeight` different blocks and ends at the
genesis block. -/
def WalksToGenesis (lib : Stdlib) (n : Node) : Prop :=
  ∃ tip blocks, n.bcStore.get lastBlockKey = some tip ∧ Visits lib n.bcStore tip blocks ∧
    blocks.length = n.currentHeight ∧ blocks.Nodup ∧
    blocks.getLast? = some (Node.genesisBlock lib) ∧
    printAllNonces lib n.bcStore = some (lines lib blocks)

/-- Every block of a run is appended to the last block of the node, and after the run every node
walks to the genesis block. -/
def Links (lib : Stdlib) (order : Fin k → UTXOOrder) (bcStore : Fin k → Store)
    (actions : List (Action k)) : Prop :=
  Run.Always (step lib) (ExtendsLast lib) (initial lib order bcStore) actions ∧
    ∀ i, WalksToGenesis lib ((Run.run (step lib) (initial lib order bcStore) actions).nodes i)

/-! ## The journal -/

/-- A network with the blocks that each node has appended, newest first, and the blocks mined so
far, each with what its miner had appended before. -/
structure Journal (k : Nat) where
  net : Network k
  chains : Fin k → List Block
  mined : List (List Block × Block)

/-- The block a step mines, with what its miner has appended before. -/
def Journal.mines (lib : Stdlib) (j : Journal k) (a : Action k) : List (List Block × Block) :=
  match a.2 with
  | .finishMining _ _ =>
      ((j.net.nodes a.1).applied lib a.2).toList.map fun call => (j.chains a.1, call.2)
  | .blockMessage _ _ => []
  | .transactionMessage _ _ => []
  | .startMining _ => []

/-- One step of the network, recorded. -/
def Journal.step (lib : Stdlib) (j : Journal k) (a : Action k) : Journal k where
  net := j.net.step lib a
  chains := Function.update j.chains a.1 ((j.net.appended lib a).toList ++ j.chains a.1)
  mined := j.mined ++ j.mines lib a

/-- No received block is appended while the node has an attempt in progress. -/
def Undisturbed (lib : Stdlib) (net : Network k) (a : Action k) : Prop :=
  ∀ amb block, a.2 = .blockMessage amb block →
    net.appended lib a = none ∨ (net.nodes a.1).mining = none

/-- A received block is appended by a node that has appended what its miner had appended. -/
def Journal.InPlace (lib : Stdlib) (j : Journal k) (a : Action k) : Prop :=
  ∀ amb block, a.2 = .blockMessage amb block → j.net.appended lib a ≠ none →
    (j.chains a.1, block) ∈ j.mined

/-- The conditions under which blocks are linked. -/
def Journal.Orderly (lib : Stdlib) (j : Journal k) (a : Action k) : Prop :=
  Undisturbed lib j.net a ∧ j.InPlace lib a

/-- The blocks that appear in a run. -/
def Journal.blocks (lib : Stdlib) (j : Journal k) : List Block :=
  Node.genesisBlock lib :: j.mined.map Prod.snd

/-- What the journal knows of a mined block: its parent is the last block its miner had appended,
and its hash is its own. -/
structure Recorded (lib : Stdlib) (chain : List Block) (block : Block) : Prop where
  parent : Linked lib block.prevBlockHash chain (root lib)
  hash : block.hash = computeBlockHash lib block
  filled : block.transactions ≠ []

/-- The record is right, and every node is on the chain of what it has appended, with its candidate
on top. -/
structure Journal.Linked (lib : Stdlib) (j : Journal k) : Prop where
  recorded : ∀ chain block, (chain, block) ∈ j.mined → Recorded lib chain block
  onChain : ∀ i, ∃ tip, (j.net.nodes i).OnChain lib tip (j.chains i)
  subset : ∀ i, j.chains i ⊆ j.blocks lib
  builds : ∀ i, (j.net.nodes i).Builds

section Invariant

variable {lib : Stdlib} {j : Journal k} {a : Action k}

/-- A step leaves a node as it is and appends nothing there, or it is the node's own step. -/
theorem step_nodes (lib : Stdlib) (net : Network k) (a : Action k) (i : Fin k) :
    ((net.step lib a).nodes i = net.nodes i ∧ (i = a.1 → net.appended lib a = none)) ∨
      i = a.1 ∧ net.appended lib a = (net.nodes i).appended lib a.2 ∧
        (net.step lib a).nodes i = (net.nodes i).step lib a.2 := by
  obtain ⟨j, e⟩ := a
  by_cases here : i = j
  · subst here
    cases e with
    | transactionMessage amb tx => exact .inr ⟨rfl, rfl, Function.update_self i _ _⟩
    | startMining amb => exact .inr ⟨rfl, rfl, Function.update_self i _ _⟩
    | finishMining amb polls =>
        refine .inr ⟨rfl, rfl, ?_⟩
        simp only [step]
        split <;> exact Function.update_self i _ _
    | blockMessage amb block =>
        simp only [step, appended, List.contains_iff_mem]
        by_cases underWay : (i, block) ∈ net.bus.inFlight
        · by_cases up : (net.nodes i).listening = true
          · rw [if_pos ⟨underWay, up⟩, if_pos underWay]
            exact .inr ⟨trivial, rfl, Function.update_self i _ _⟩
          · rw [if_neg fun both => up both.2]
            refine .inl ⟨rfl, fun _ => ?_⟩
            simp [Node.appended, Node.applied, up]
        · rw [if_neg fun both => underWay both.1, if_neg underWay]
          exact .inl ⟨rfl, fun _ => rfl⟩
  · refine .inl ⟨?_, fun same => (here same).elim⟩
    cases e with
    | transactionMessage amb tx => exact Function.update_of_ne here _ _
    | startMining amb => exact Function.update_of_ne here _ _
    | finishMining amb polls =>
        simp only [step]
        split <;> exact Function.update_of_ne here _ _
    | blockMessage amb block =>
        simp only [step]
        split
        · exact Function.update_of_ne here _ _
        · rfl

/-- What a step appends is appended by the node, and is the block it receives or mines. -/
theorem node_appended {net : Network k} {block : Block}
    (appends : net.appended lib a = some block) :
    (net.nodes a.1).appended lib a.2 = some block := by
  obtain ⟨i, e⟩ := a
  cases e with
  | transactionMessage amb tx => cases appends
  | startMining amb => cases appends
  | finishMining amb polls => exact appends
  | blockMessage amb block' =>
      simp only [appended] at appends
      split at appends
      · exact appends
      · cases appends

theorem Journal.chains_step_of_none {i : Fin k} (none : i = a.1 → j.net.appended lib a = none) :
    (j.step lib a).chains i = j.chains i := by
  by_cases here : i = a.1
  · subst here
    simp only [Journal.step, none rfl, Function.update_self, Option.toList_none, List.nil_append]
  · exact Function.update_of_ne here _ _

theorem Journal.mem_mines {chain : List Block} {block : Block}
    (mem : (chain, block) ∈ j.mines lib a) :
    chain = j.chains a.1 ∧ ∃ polls, (j.net.nodes a.1).minedBlock lib polls = some block := by
  obtain ⟨i, e⟩ := a
  cases e with
  | transactionMessage amb tx => cases mem
  | startMining amb => cases mem
  | blockMessage amb block' => cases mem
  | finishMining amb polls =>
      obtain ⟨call, applies, same⟩ := List.mem_map.mp mem
      cases same
      exact ⟨rfl, polls, Node.minedBlock_of_applied (Option.mem_toList.mp applies)⟩

theorem Journal.blocks_subset_step (lib : Stdlib) (j : Journal k) (a : Action k) :
    j.blocks lib ⊆ (j.step lib a).blocks lib := by
  refine List.cons_subset_cons _ ?_
  rw [Journal.step, List.map_append]
  exact List.subset_append_left _ _

/-- What a step records is right. -/
theorem Journal.Linked.recorded_step (linked : j.Linked lib)
    (faithful : Faithful lib (j.blocks lib)) {chain : List Block} {block : Block}
    (mem : (chain, block) ∈ j.mines lib a) :
    Recorded lib chain block := by
  obtain ⟨rfl, polls, mined⟩ := mem_mines mem
  obtain ⟨tip, onChain⟩ := linked.onChain a.1
  obtain ⟨parent, -, hash, filled⟩ := (linked.builds a.1).minedBlock mined
  rw [(onChain.get_last faithful (linked.subset a.1)).2, Option.getD_some] at parent
  refine ⟨?_, hash, filled⟩
  rw [parent]
  exact onChain.chain.linked

/-- The block a step appends is recorded, with what the node has appended. -/
theorem Journal.Linked.appended_recorded (linked : j.Linked lib) (inPlace : j.InPlace lib a)
    (faithful : Faithful lib (j.blocks lib)) {block : Block}
    (appends : j.net.appended lib a = some block) :
    Recorded lib (j.chains a.1) block ∧ block ∈ (j.step lib a).blocks lib := by
  obtain ⟨order, applies, -⟩ := Node.appended_eq_some_iff.mp (node_appended appends)
  obtain ⟨i, e⟩ := a
  cases e with
  | transactionMessage amb tx => cases applies
  | startMining amb => cases applies
  | finishMining amb polls =>
      have mem : (j.chains i, block) ∈ j.mines lib (i, .finishMining amb polls) :=
        List.mem_map.mpr ⟨(order, block), Option.mem_toList.mpr applies, rfl⟩
      refine ⟨linked.recorded_step faithful mem, List.mem_cons_of_mem _ ?_⟩
      exact List.mem_map.mpr ⟨_, List.mem_append_right _ mem, rfl⟩
  | blockMessage amb block' =>
      obtain ⟨rfl, -⟩ := Node.validateBlock_of_applied applies
      have mem := inPlace amb block rfl (by rw [appends]; exact Option.some_ne_none _)
      refine ⟨linked.recorded _ _ mem, List.mem_cons_of_mem _ ?_⟩
      exact List.mem_map.mpr ⟨_, List.mem_append_left _ mem, rfl⟩

theorem Journal.Linked.extendsLast (linked : j.Linked lib) (inPlace : j.InPlace lib a)
    (faithful : Faithful lib (j.blocks lib)) : j.net.ExtendsLast lib a := by
  intro block appends
  obtain ⟨tip, onChain⟩ := linked.onChain a.1
  have recorded := (linked.appended_recorded inPlace faithful appends).1
  rw [(onChain.get_last faithful (linked.subset a.1)).2,
    onChain.chain.linked.tip_unique recorded.parent]

/-- A step of a node that is not disturbed, with the block it appends in place. -/
theorem Journal.Linked.onChain_step (linked : j.Linked lib) (inPlace : j.InPlace lib a)
    (faithful : Faithful lib ((j.step lib a).blocks lib)) (i : Fin k) :
    (∃ tip, ((j.step lib a).net.nodes i).OnChain lib tip ((j.step lib a).chains i)) ∧
      (j.step lib a).chains i ⊆ (j.step lib a).blocks lib := by
  have grows := j.blocks_subset_step lib a
  have before := faithful.mono grows
  obtain ⟨tip, onChain⟩ := linked.onChain i
  have within := List.Subset.trans (linked.subset i) grows
  rcases step_nodes lib j.net a i with ⟨same, none⟩ | ⟨rfl, own, acts⟩
  · rw [Journal.chains_step_of_none none]
    exact ⟨⟨tip, same ▸ onChain⟩, within⟩
  · show (∃ tip, ((j.net.step lib a).nodes a.1).OnChain lib tip _) ∧ _
    rw [acts]
    cases appends : j.net.appended lib a with
    | none =>
        rw [Journal.chains_step_of_none fun _ => appends]
        exact ⟨⟨tip, onChain.quiet (own.symm.trans appends)⟩, within⟩
    | some block =>
        obtain ⟨recorded, mem⟩ := linked.appended_recorded inPlace before appends
        have parent := recorded.parent.tip_unique onChain.chain.linked
        have grown : (j.step lib a).chains a.1 = block :: j.chains a.1 := by
          simp only [Journal.step, appends, Function.update_self, Option.toList_some,
            List.singleton_append]
        rw [grown]
        refine ⟨⟨block.hash, ?_⟩, List.cons_subset.mpr ⟨mem, within⟩⟩
        exact onChain.appends faithful within mem (own.symm.trans appends) parent recorded.hash
          recorded.filled

theorem Journal.Linked.step (linked : j.Linked lib) (orderly : j.Orderly lib a)
    (faithful : Faithful lib ((j.step lib a).blocks lib)) : (j.step lib a).Linked lib := by
  have before := faithful.mono (j.blocks_subset_step lib a)
  refine ⟨?_, fun i => (linked.onChain_step orderly.2 faithful i).1,
    fun i => (linked.onChain_step orderly.2 faithful i).2, ?_⟩
  · intro chain block mem
    rcases List.mem_append.mp mem with old | new
    · exact linked.recorded chain block old
    · exact linked.recorded_step before new
  · intro i
    rcases step_nodes lib j.net a i with ⟨same, -⟩ | ⟨rfl, own, acts⟩
    · exact same ▸ linked.builds i
    · show ((j.net.step lib a).nodes a.1).Builds
      rw [acts]
      exact (linked.builds a.1).step (own ▸ orderly.1)

theorem Journal.blocks_subset_run (lib : Stdlib) (j : Journal k) (actions : List (Action k)) :
    j.blocks lib ⊆ (Run.run (Journal.step lib) j actions).blocks lib :=
  Run.run_invariant (I := fun j' : Journal k => j.blocks lib ⊆ j'.blocks lib)
    (List.Subset.refl _)
    (fun j' a subset => List.Subset.trans subset (j'.blocks_subset_step lib a)) actions

/-- In an orderly run every block extends the last one, and the journal stays linked. -/
theorem Journal.Linked.run {actions : List (Action k)} (linked : j.Linked lib)
    (orderly : Run.Always (Journal.step lib) (Journal.Orderly lib) j actions)
    (faithful : Faithful lib ((Run.run (Journal.step lib) j actions).blocks lib)) :
    Run.Always (Network.step lib) (ExtendsLast lib) j.net actions ∧
      (Run.run (Journal.step lib) j actions).Linked lib ∧
      (Run.run (Journal.step lib) j actions).net = Run.run (Network.step lib) j.net actions := by
  induction actions generalizing j with
  | nil => exact ⟨trivial, linked, rfl⟩
  | cons a actions ih =>
      obtain ⟨here, rest⟩ := orderly
      have next : Faithful lib ((j.step lib a).blocks lib) :=
        faithful.mono (Journal.blocks_subset_run lib (j.step lib a) actions)
      have before : Faithful lib (j.blocks lib) := next.mono (j.blocks_subset_step lib a)
      obtain ⟨always, final, same⟩ := ih (linked.step here next) rest faithful
      exact ⟨⟨linked.extendsLast here.2 before, always⟩, final, same⟩

theorem Journal.Linked.walksToGenesis (linked : j.Linked lib)
    (faithful : Faithful lib (j.blocks lib)) (i : Fin k) : WalksToGenesis lib (j.net.nodes i) := by
  obtain ⟨tip, onChain⟩ := linked.onChain i
  have subset := linked.subset i
  have apart : (j.chains i).Nodup := (List.nodup_cons.mp onChain.chain.apart).2.of_map _
  exact ⟨tip, _, (onChain.get_last faithful subset).2, onChain.chain.visits faithful subset,
    onChain.height, apart, onChain.genesis, onChain.printAllNonces faithful subset⟩

end Invariant

/-- The journal when all nodes have started. -/
def Journal.initial (lib : Stdlib) (order : Fin k → UTXOOrder) (bcStore : Fin k → Store) :
    Journal k where
  net := Network.initial lib order bcStore
  chains _ := [Node.genesisBlock lib]
  mined := []

theorem Journal.initial_linked {lib : Stdlib} (order : Fin k → UTXOOrder) {bcStore : Fin k → Store}
    (vacant : ∀ i, (bcStore i).data.get (hexEncode (root lib)) = none)
    (faithful : Faithful lib [Node.genesisBlock lib]) :
    (Journal.initial lib order bcStore).Linked lib := by
  refine ⟨fun chain block mem => ?_, fun i => ?_, fun i => List.Subset.refl _, fun i => ?_⟩
  · exact (List.not_mem_nil mem).elim
  · exact ⟨_, Node.start_onChain (order i) faithful List.mem_cons_self (vacant i)⟩
  · exact .of_idle (Node.start_mining lib (order i) (bcStore i))

/-- **Linkage under a common history.**  If every node that appends a received block has appended
what its miner had appended, and no received block is appended during an attempt, then every block
extends the last block of the node that appends it, and every node walks to the genesis block. -/
theorem linkage_of_common_history (lib : Stdlib) (order : Fin k → UTXOOrder)
    (bcStore : Fin k → Store) (actions : List (Action k))
    (vacant : ∀ i, (bcStore i).data.get (hexEncode (root lib)) = none)
    (faithful : Faithful lib
      ((Run.run (Journal.step lib) (Journal.initial lib order bcStore) actions).blocks lib))
    (orderly : Run.Always (Journal.step lib) (Journal.Orderly lib)
      (Journal.initial lib order bcStore) actions) :
    Links lib order bcStore actions := by
  have start : (Journal.initial lib order bcStore).Linked lib :=
    Journal.initial_linked order vacant
      (faithful.mono (Journal.blocks_subset_run lib (Journal.initial lib order bcStore) actions))
  obtain ⟨always, linked, same⟩ := start.run orderly faithful
  refine ⟨always, fun i => ?_⟩
  have walks := linked.walksToGenesis faithful i
  rw [same] at walks
  exact walks

/-- The conditions are about received blocks. -/
theorem orderly_own {lib : Stdlib} {j : Journal k} {a : Action k} (own : a.2.Own) :
    j.Orderly lib a :=
  ⟨fun amb block same => (own amb block same).elim, fun amb block same => (own amb block same).elim⟩

/-- One node mines a claim and the other receives its block. -/
theorem links_oneMines :
    Links minersLib (fun _ : Fin 2 => .sorted) (fun _ => sampleStore) oneMines := by
  have journal : (Run.run (Journal.step minersLib)
      (Journal.initial minersLib (fun _ : Fin 2 => .sorted) (fun _ => sampleStore))
      oneMines).blocks minersLib = [sampleGenesis, block1] := by
    decide +kernel
  refine linkage_of_common_history minersLib _ _ oneMines (fun _ => rfl) ?_ ?_
  · rw [journal]
    exact Node.faithful_minersLib
  · refine ⟨orderly_own fun _ _ other => Node.Event.noConfusion other,
      orderly_own fun _ _ other => Node.Event.noConfusion other,
      orderly_own fun _ _ other => Node.Event.noConfusion other, ⟨?_, ?_⟩, trivial⟩
    · intro _ _ _
      exact .inr (by decide +kernel)
    · intro _ _ same _
      cases same
      decide +kernel

/-- The block of the first node is appended to the second one's and names the genesis block as its
parent. -/
theorem receivesWhileMining_not_links :
    ¬ Links minersLib (fun _ : Fin 2 => .sorted) (fun _ => sampleStore) receivesWhileMining := by
  intro links
  obtain ⟨-, -, -, -, -, -, last, -⟩ := links.1
  have parent := last block1 (by decide +kernel)
  revert parent
  decide +kernel

end Network

end Peerster
