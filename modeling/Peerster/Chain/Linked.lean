import Peerster.Chain.Stored

/-!
# Chains in the store

A chain is a list of blocks, newest first, each the parent of the one before it, down to a hash
under which nothing is stored.  Appending a block on top of a chain gives a chain, because its hash
is new: a block with the same hash would have the same preimage and so the same parent, and the tip
of a chain is the parent of none of its blocks.
-/

namespace Peerster

/-- The parent of the genesis block. -/
def root (lib : Stdlib) : Bytes := (lib.sha256 lastBlockKey).1

/-- The byte strings hashed for the hashes of the blocks and of the genesis block's parent. -/
def hashed (lib : Stdlib) (blocks : List Block) : List Bytes :=
  lastBlockKey :: blocks.filterMap (blockPreimage lib)

/-- What a chain of the blocks relies on of the standard library: the JSON encodings of the blocks
and of their transactions succeed, a block decodes to itself, a transaction is an object, and
SHA-256 has no collision and no zero value on the strings hashed. -/
structure Faithful (lib : Stdlib) (blocks : List Block) : Prop where
  decodes : ∀ block ∈ blocks, ∃ data,
    lib.marshalBlock block = some data ∧ data ≠ [] ∧ lib.unmarshalBlock data = some block
  opens : ∀ block ∈ blocks, ∀ t ∈ block.transactions, ∃ rest,
    lib.marshalTransaction t = some (123 :: rest)
  collisionFree : ∀ x ∈ hashed lib blocks, ∀ y ∈ hashed lib blocks,
    lib.sha256 x = lib.sha256 y → x = y
  nonzero : ∀ x ∈ hashed lib blocks, (lib.sha256 x).1 ≠ List.replicate 32 0

/-- Following `PrevBlockHash` from `tip` runs through the blocks and ends at `bottom`. -/
def Linked (lib : Stdlib) : Bytes → List Block → Bytes → Prop
  | tip, [], bottom => tip = bottom
  | tip, block :: blocks, bottom =>
      tip = computeBlockHash lib block ∧ Linked lib block.prevBlockHash blocks bottom

/-- The blocks are stored, each under the hex of its own hash, and linked from `tip` down to the
parent of the genesis block, under which nothing is stored; no hash occurs twice. -/
structure ChainIn (lib : Stdlib) (s : Store) (tip : Bytes) (blocks : List Block) : Prop where
  linked : Linked lib tip blocks (root lib)
  apart : (tip :: blocks.map Block.prevBlockHash).Nodup
  stored : ∀ block ∈ blocks,
    s.data.get (hexEncode (computeBlockHash lib block)) = lib.marshalBlock block
  ends : s.data.get (hexEncode (root lib)) = none

/-! ## Hashes -/

section Hashes

variable {lib : Stdlib} {all : List Block} {block : Block}

theorem Faithful.mono {blocks : List Block} (faithful : Faithful lib all) (subset : blocks ⊆ all) :
    Faithful lib blocks := by
  have hashes : hashed lib blocks ⊆ hashed lib all := by
    intro x mem
    rcases List.mem_cons.mp mem with rfl | mem
    · exact List.mem_cons_self
    · obtain ⟨block, inside, preimage⟩ := List.mem_filterMap.mp mem
      exact List.mem_cons_of_mem _ (List.mem_filterMap.mpr ⟨block, subset inside, preimage⟩)
  exact ⟨fun block mem => faithful.decodes block (subset mem),
    fun block mem => faithful.opens block (subset mem),
    fun x mem y mem' => faithful.collisionFree x (hashes mem) y (hashes mem'),
    fun x mem => faithful.nonzero x (hashes mem)⟩

theorem exists_marshalTransactions {ts : List Transaction}
    (opens : ∀ t ∈ ts, ∃ rest, lib.marshalTransaction t = some (123 :: rest)) :
    ∃ data, marshalTransactions lib ts = some data ∧ (ts ≠ [] → 123 ∈ data) := by
  induction ts with
  | nil => exact ⟨[], rfl, fun filled => (filled rfl).elim⟩
  | cons t ts ih =>
      obtain ⟨rest, here⟩ := opens t List.mem_cons_self
      obtain ⟨data, later, -⟩ := ih fun t' mem => opens t' (List.mem_cons_of_mem t mem)
      refine ⟨123 :: rest ++ data, ?_, fun _ => List.mem_cons_self⟩
      simp [marshalTransactions, here, later]

/-- A block has a preimage, which ends with its parent and holds a brace if it has transactions. -/
theorem Faithful.exists_preimage (faithful : Faithful lib all) (mem : block ∈ all) :
    ∃ front, blockPreimage lib block = some (front ++ block.prevBlockHash) ∧
      (block.transactions ≠ [] → 123 ∈ front) := by
  obtain ⟨data, encoded, brace⟩ := exists_marshalTransactions (faithful.opens block mem)
  refine ⟨itoa block.challenge ++ data, ?_, fun filled => ?_⟩
  · simp only [blockPreimage, encoded, Option.map_some]
  · exact List.mem_append_right _ (brace filled)

theorem mem_hashed {data : Bytes} (mem : block ∈ all)
    (preimage : blockPreimage lib block = some data) :
    data ∈ hashed lib all :=
  List.mem_cons_of_mem _ (List.mem_filterMap.mpr ⟨block, mem, preimage⟩)

theorem computeBlockHash_of_preimage {data : Bytes}
    (preimage : blockPreimage lib block = some data) :
    computeBlockHash lib block = (lib.sha256 data).1 := by
  simp only [computeBlockHash, preimage]

/-- The hashes of the blocks and the parent of the genesis block are digests of strings hashed. -/
theorem Faithful.exists_hashed (faithful : Faithful lib all) {blocks : List Block} {hash : Bytes}
    (subset : blocks ⊆ all) (mem : hash ∈ blocks.map (computeBlockHash lib) ++ [root lib]) :
    ∃ x ∈ hashed lib all, hash = (lib.sha256 x).1 := by
  rcases List.mem_append.mp mem with inside | last
  · obtain ⟨block, member, rfl⟩ := List.mem_map.mp inside
    obtain ⟨front, preimage, -⟩ := faithful.exists_preimage (subset member)
    exact ⟨_, mem_hashed (subset member) preimage, computeBlockHash_of_preimage preimage⟩
  · exact ⟨lastBlockKey, List.mem_cons_self, List.mem_singleton.mp last⟩

/-- A digest that is not zero is followed. -/
theorem parentHash_of_digest (size : block.prevBlockHash.length = 32)
    (nonzero : block.prevBlockHash ≠ List.replicate 32 0) :
    block.parentHash = some block.prevBlockHash := by
  unfold Block.parentHash
  rw [if_neg]
  intro stops
  rcases stops with vacant | zeros
  · rw [size] at vacant
    cases vacant
  · have all : ∀ byte ∈ block.prevBlockHash, byte = 0 := by simpa [isAllZeros] using zeros
    exact nonzero (List.eq_replicate_iff.mpr ⟨size, all⟩)

/-- Linked blocks: their hashes and then the bottom are the tip and then their parents. -/
theorem Linked.hashes {tip bottom : Bytes} {blocks : List Block}
    (linked : Linked lib tip blocks bottom) :
    blocks.map (computeBlockHash lib) ++ [bottom] = tip :: blocks.map Block.prevBlockHash := by
  induction blocks generalizing tip with
  | nil =>
      cases linked
      rfl
  | cons block blocks ih =>
      obtain ⟨rfl, rest⟩ := linked
      rw [List.map_cons, List.cons_append, ih rest, List.map_cons]

theorem Linked.tip_unique {tip tip' bottom : Bytes} {blocks : List Block}
    (linked : Linked lib tip blocks bottom) (linked' : Linked lib tip' blocks bottom) :
    tip = tip' :=
  (List.cons.inj (linked.hashes.symm.trans linked'.hashes)).1

end Hashes

/-! ## Appending a block -/

section Append

variable {lib : Stdlib} {s : Store} {tip : Bytes} {all blocks : List Block} {block : Block}

/-- The key of a digest is a file name. -/
theorem takes_digest (s : Store) {hash : Bytes} (size : hash.length = 32) :
    s.takes (hexEncode hash) = true := by
  unfold Store.takes
  cases s.backend with
  | inmemory => rfl
  | file =>
      have length : (hexEncode hash).length = 64 := by rw [length_hexEncode, size]
      have digits : ∀ byte ∈ hexEncode hash, 48 ≤ byte.toNat := fun byte => le_of_mem_hexEncode
      have absent : ∀ byte : UInt8, byte.toNat < 48 → byte ∉ hexEncode hash :=
        fun byte small mem => absurd (digits byte mem) (by omega)
      have apart : ∀ name : GoString, name.length ≠ 64 → hexEncode hash ≠ name := by
        intro name other same
        exact other (same ▸ length)
      simp only [fileName, Bool.decide_and, Bool.and_eq_true, decide_eq_true_eq, length]
      exact ⟨apart [] (by decide), by decide, absent 47 (by decide), absent 0 (by decide),
        apart _ (by decide +kernel), apart _ (by decide +kernel)⟩

/-- The hash of a block on top of a chain is none of the chain's hashes. -/
theorem ChainIn.fresh (faithful : Faithful lib all) (chain : ChainIn lib s tip blocks)
    (subset : blocks ⊆ all) (mem : block ∈ all) (parent : block.prevBlockHash = tip)
    (proper : blockPreimage lib block ≠ some lastBlockKey) :
    computeBlockHash lib block ∉ tip :: blocks.map Block.prevBlockHash := by
  intro old
  obtain ⟨front, preimage, -⟩ := faithful.exists_preimage mem
  have hash := computeBlockHash_of_preimage preimage
  have here := mem_hashed mem preimage
  rw [← chain.linked.hashes] at old
  rcases List.mem_append.mp old with inside | last
  · obtain ⟨block', member, same⟩ := List.mem_map.mp inside
    obtain ⟨front', preimage', -⟩ := faithful.exists_preimage (subset member)
    rw [computeBlockHash_of_preimage preimage', hash] at same
    have preimages := faithful.collisionFree _ (mem_hashed (subset member) preimage') _ here
      (Subtype.ext same)
    have lengths : block'.prevBlockHash.length = block.prevBlockHash.length := by
      have digest : ∀ h ∈ tip :: blocks.map Block.prevBlockHash, h.length = 32 := by
        intro h among
        rw [← chain.linked.hashes] at among
        obtain ⟨x, -, rfl⟩ := faithful.exists_hashed subset among
        exact (lib.sha256 x).2
      rw [parent, digest _ (List.mem_cons_of_mem _ (List.mem_map_of_mem member)),
        digest tip List.mem_cons_self]
    have parents : block'.prevBlockHash = tip :=
      (List.append_inj' preimages lengths).2.trans parent
    have twice : tip ∈ blocks.map Block.prevBlockHash := parents ▸ List.mem_map_of_mem member
    exact (List.nodup_cons.mp chain.apart).1 twice
  · rw [List.mem_singleton.mp last] at hash
    have key := faithful.collisionFree lastBlockKey List.mem_cons_self _ here (Subtype.ext hash)
    exact proper (by rw [preimage, ← key])

/-- A block on top of a chain, stored, makes a chain. -/
theorem ChainIn.append (faithful : Faithful lib all) (chain : ChainIn lib s tip blocks)
    (subset : blocks ⊆ all) (mem : block ∈ all) (parent : block.prevBlockHash = tip)
    (hash : block.hash = computeBlockHash lib block)
    (proper : blockPreimage lib block ≠ some lastBlockKey) :
    ChainIn lib (Node.storeBlock lib s block) block.hash (block :: blocks) := by
  have fresh := chain.fresh faithful subset mem parent proper
  have within : block :: blocks ⊆ all := List.cons_subset.mpr ⟨mem, subset⟩
  have linked : Linked lib block.hash (block :: blocks) (root lib) := ⟨hash, parent ▸ chain.linked⟩
  -- every hash of the new chain is a digest, and not the one of `LastBlockKey`
  have digest : ∀ h ∈ (block :: blocks).map (computeBlockHash lib) ++ [root lib],
      h.length = 32 ∧ hexEncode h ≠ lastBlockKey := by
    intro h among
    obtain ⟨x, hashes, rfl⟩ := faithful.exists_hashed within among
    refine ⟨(lib.sha256 x).2, fun zeros => ?_⟩
    exact faithful.nonzero x hashes (hexEncode_eq_lastBlockKey_iff.mp zeros)
  have kept : ∀ h ∈ blocks.map (computeBlockHash lib) ++ [root lib],
      (Node.storeBlock lib s block).data.get (hexEncode h) = s.data.get (hexEncode h) := by
    intro h among
    refine Node.storeBlock_data_of_ne (fun same => fresh ?_)
      (digest h (List.mem_cons_of_mem _ among)).2
    rw [← chain.linked.hashes, ← hash, ← hexEncode_injective same]
    exact among
  refine ⟨linked, ?_, ?_, ?_⟩
  · rw [hash, List.map_cons, parent]
    exact List.nodup_cons.mpr ⟨fresh, chain.apart⟩
  · intro block' member
    rcases List.mem_cons.mp member with rfl | old
    · obtain ⟨data, encoded, -, -⟩ := faithful.decodes block' mem
      obtain ⟨size, off⟩ := digest block'.hash (hash ▸ List.mem_cons_self)
      rw [← hash, Node.storeBlock_data_self lib (takes_digest s size) off, encoded]
      rfl
    · rw [kept _ (List.mem_append_left _ (List.mem_map_of_mem old))]
      exact chain.stored block' old
  · rw [kept _ (List.mem_append_right _ List.mem_cons_self)]
    exact chain.ends

end Append

/-! ## Walking a chain -/

section Walk

variable {lib : Stdlib} {s : Store} {tip : Bytes} {all blocks : List Block}

/-- Starting at a hash, `PrintAllNonces` visits the blocks, each stored under the hex of its own
hash, and then comes to a key that is not in the store. -/
def Visits (lib : Stdlib) (s : Store) : Bytes → List Block → Prop
  | hash, [] => s.get (hexEncode hash) = none
  | hash, block :: blocks =>
      hash = computeBlockHash lib block ∧ blockAt lib s (hexEncode hash) = some block ∧
        block.parentHash = some block.prevBlockHash ∧ Visits lib s block.prevBlockHash blocks

theorem visits_of_linked {bottom : Bytes} (linked : Linked lib tip blocks bottom)
    (found : ∀ block ∈ blocks,
      blockAt lib s (hexEncode (computeBlockHash lib block)) = some block)
    (goesOn : ∀ block ∈ blocks, block.parentHash = some block.prevBlockHash)
    (ends : s.get (hexEncode bottom) = none) : Visits lib s tip blocks := by
  induction blocks generalizing tip with
  | nil =>
      cases linked
      exact ends
  | cons block blocks ih =>
      obtain ⟨rfl, rest⟩ := linked
      exact ⟨rfl, found block List.mem_cons_self, goesOn block List.mem_cons_self,
        ih rest (fun b mem => found b (List.mem_cons_of_mem _ mem))
          fun b mem => goesOn b (List.mem_cons_of_mem _ mem)⟩

theorem Visits.vacant (visits : Visits lib s tip []) : blockAt lib s (hexEncode tip) = none := by
  unfold blockAt
  rw [show s.get (hexEncode tip) = none from visits]

/-- The lines `PrintAllNonces` prints on a chain. -/
def lines (lib : Stdlib) (blocks : List Block) : List (Int × GoString) :=
  blocks.map fun block => (block.nonce, hexEncode (computeBlockHash lib block))

theorem Visits.walk (visits : Visits lib s tip blocks) :
    walk lib s (blocks.length + 1) tip = some (lines lib blocks) := by
  induction blocks generalizing tip with
  | nil =>
      simp only [Peerster.walk, visits.vacant]
      rfl
  | cons block blocks ih =>
      obtain ⟨rfl, found, parent, rest⟩ := visits
      simp only [List.length_cons, Peerster.walk, found, parent, ih rest]
      rfl

theorem ChainIn.visits (faithful : Faithful lib all) (chain : ChainIn lib s tip blocks)
    (subset : blocks ⊆ all) : Visits lib s tip blocks := by
  refine visits_of_linked chain.linked (fun block mem => ?_) (fun block mem => ?_) ?_
  · obtain ⟨data, encoded, filled, decoded⟩ := faithful.decodes block (subset mem)
    rw [blockAt_of_data ((chain.stored block mem).trans encoded) filled, decoded]
  · have among : block.prevBlockHash ∈ blocks.map (computeBlockHash lib) ++ [root lib] := by
      rw [chain.linked.hashes]
      exact List.mem_cons_of_mem _ (List.mem_map_of_mem mem)
    obtain ⟨x, hashes, digest⟩ := faithful.exists_hashed subset among
    refine parentHash_of_digest ?_ ?_
    · rw [digest]
      exact (lib.sha256 x).2
    · rw [digest]
      exact faithful.nonzero x hashes
  · exact Store.get_of_data_none chain.ends

end Walk

/-! ## A node on a chain -/

namespace Node

/-- The store of the node holds a chain of `currentHeight` blocks, from the last block down to the
genesis block. -/
structure OnChain (lib : Stdlib) (n : Node) (tip : Bytes) (blocks : List Block) : Prop where
  last : n.bcStore.data.get lastBlockKey = some tip
  chain : ChainIn lib n.bcStore tip blocks
  height : blocks.length = n.currentHeight
  genesis : blocks.getLast? = some (genesisBlock lib)

/-- The candidate of the attempt in progress is the one the node would create now. -/
def Builds (n : Node) : Prop :=
  ∀ candidate, n.mining = some candidate →
    candidate.transactions ≠ [] ∧ candidate = createCandidateBlock n candidate.transactions

section OnChain

variable {lib : Stdlib} {n : Node} {e : Event} {tip : Bytes} {all blocks : List Block}
  {block : Block}

theorem OnChain.get_last (onChain : n.OnChain lib tip blocks) (faithful : Faithful lib all)
    (subset : blocks ⊆ all) : tip ≠ [] ∧ n.bcStore.get lastBlockKey = some tip := by
  have among : tip ∈ blocks.map (computeBlockHash lib) ++ [root lib] := by
    rw [onChain.chain.linked.hashes]
    exact List.mem_cons_self
  obtain ⟨x, -, digest⟩ := faithful.exists_hashed subset among
  have filled : tip ≠ [] := by
    rintro rfl
    have size := (lib.sha256 x).2
    rw [← digest] at size
    cases size
  exact ⟨filled, Store.get_of_data onChain.last filled⟩

/-- On a chain, `PrintAllNonces` prints the blocks of the chain. -/
theorem OnChain.printAllNonces (onChain : n.OnChain lib tip blocks) (faithful : Faithful lib all)
    (subset : blocks ⊆ all) : printAllNonces lib n.bcStore = some (lines lib blocks) := by
  obtain ⟨filled, last⟩ := onChain.get_last faithful subset
  exact printAllNonces_of_walk last filled (onChain.chain.visits faithful subset).walk

theorem blockPreimage_genesisBlock (lib : Stdlib) :
    blockPreimage lib (genesisBlock lib) ≠ some lastBlockKey := by
  intro same
  have preimage : itoa 0 ++ [] ++ root lib = lastBlockKey := Option.some.inj same
  have lengths := congrArg List.length preimage
  have digit : (itoa 0).length = 1 := by decide +kernel
  have size : (root lib).length = 32 := (lib.sha256 lastBlockKey).2
  simp only [List.append_nil, List.length_append, digit, size] at lengths
  revert lengths
  decide

/-- A started node is on the chain of the genesis block, unless its parent was in the store. -/
theorem start_onChain (order : UTXOOrder) {bcStore : Store} (faithful : Faithful lib all)
    (mem : genesisBlock lib ∈ all) (vacant : bcStore.data.get (hexEncode (root lib)) = none) :
    (start lib order (newPeer bcStore)).OnChain lib (genesisBlock lib).hash [genesisBlock lib] := by
  have nothing : ChainIn lib bcStore (root lib) [] :=
    ⟨rfl, List.nodup_singleton _, fun _ none => (List.not_mem_nil none).elim, vacant⟩
  have appended := start_chain lib order bcStore
  have store : (start lib order (newPeer bcStore)).bcStore = _ := congrArg Prod.fst appended
  have height : (start lib order (newPeer bcStore)).currentHeight = _ := congrArg Prod.snd appended
  refine ⟨?_, ?_, height.symm, rfl⟩
  · rw [store]
    exact storeBlock_data_last lib bcStore (genesisBlock lib)
  · rw [store]
    exact nothing.append faithful (List.nil_subset _) mem rfl rfl (blockPreimage_genesisBlock lib)

/-- A step that appends nothing leaves the node on its chain. -/
theorem OnChain.quiet (onChain : n.OnChain lib tip blocks) (appends : n.appended lib e = none) :
    (n.step lib e).OnChain lib tip blocks := by
  have same := step_chain lib n e
  rw [appends] at same
  have store : (n.step lib e).bcStore = n.bcStore := congrArg Prod.fst same
  have height : (n.step lib e).currentHeight = n.currentHeight := congrArg Prod.snd same
  exact ⟨store ▸ onChain.last, store ▸ onChain.chain, height ▸ onChain.height, onChain.genesis⟩

/-- A step that appends a block on top of the last one leaves the node on a chain. -/
theorem OnChain.appends (onChain : n.OnChain lib tip blocks) (faithful : Faithful lib all)
    (subset : blocks ⊆ all) (mem : block ∈ all) (appends : n.appended lib e = some block)
    (parent : block.prevBlockHash = tip) (hash : block.hash = computeBlockHash lib block)
    (filled : block.transactions ≠ []) :
    (n.step lib e).OnChain lib block.hash (block :: blocks) := by
  have changed := step_chain lib n e
  rw [appends] at changed
  have store : (n.step lib e).bcStore = storeBlock lib n.bcStore block := congrArg Prod.fst changed
  have height : (n.step lib e).currentHeight = n.currentHeight + 1 := congrArg Prod.snd changed
  have proper : blockPreimage lib block ≠ some lastBlockKey := by
    intro same
    obtain ⟨front, preimage, brace⟩ := faithful.exists_preimage mem
    have key : front ++ block.prevBlockHash = lastBlockKey :=
      Option.some.inj (preimage.symm.trans same)
    have digit : 123 ∈ lastBlockKey := key ▸ List.mem_append_left _ (brace filled)
    revert digit
    decide
  refine ⟨?_, ?_, ?_, ?_⟩
  · rw [store]
    exact storeBlock_data_last lib n.bcStore block
  · rw [store]
    exact onChain.chain.append faithful subset mem parent hash proper
  · rw [height, List.length_cons, onChain.height]
  · rw [List.getLast?_cons, onChain.genesis]
    rfl

end OnChain

/-! ## Candidates -/

section Builds

variable {lib : Stdlib} {n n' : Node} {e : Event}

theorem createCandidateBlock_congr (same : n'.chain = n.chain) (txs : List Transaction) :
    createCandidateBlock n' txs = createCandidateBlock n txs := by
  have store : n'.bcStore = n.bcStore := congrArg Prod.fst same
  have height : n'.currentHeight = n.currentHeight := congrArg Prod.snd same
  simp only [createCandidateBlock, store, height]

theorem Builds.of_idle (idle : n.mining = none) : n.Builds := by
  intro candidate inProgress
  rw [idle] at inProgress
  cases inProgress

/-- The candidate stays up to date as long as no received block is appended during an attempt. -/
theorem Builds.step (builds : n.Builds)
    (undisturbed : ∀ amb block, e = .blockMessage amb block →
      n.appended lib e = none ∨ n.mining = none) : (n.step lib e).Builds := by
  have chain := step_chain lib n e
  intro candidate inProgress
  rcases step_mining inProgress with ⟨before, stuck⟩ | ⟨amb, rfl, filled, created⟩
  · have quiet : n.appended lib e = none := by
      cases e with
      | transactionMessage amb tx => rfl
      | startMining amb => rfl
      | finishMining amb polls =>
          simp only [appended, applied, if_neg (stuck amb polls rfl)]
      | blockMessage amb block =>
          rcases undisturbed amb block rfl with quiet | idle
          · exact quiet
          · rw [idle] at before
            cases before
    rw [quiet] at chain
    rw [createCandidateBlock_congr chain]
    exact builds candidate before
  · refine ⟨filled, ?_⟩
    rw [createCandidateBlock_congr chain, created]
    rfl

/-- A block mined while the candidate is up to date has the last block as its parent, and its own
hash. -/
theorem Builds.minedBlock {polls : Nat} {block : Block} (builds : n.Builds)
    (mined : n.minedBlock lib polls = some block) :
    block.prevBlockHash = (n.bcStore.get lastBlockKey).getD [] ∧
      block.nonce = n.currentHeight + 1 ∧ block.hash = computeBlockHash lib block ∧
      block.transactions ≠ [] := by
  obtain ⟨candidate, challenge, inProgress, rfl, -, -⟩ := minedBlock_eq_some mined
  obtain ⟨filled, created⟩ := builds candidate inProgress
  refine ⟨?_, ?_, rfl, filled⟩
  · show candidate.prevBlockHash = _
    rw [created]
    rfl
  · show candidate.nonce = _
    rw [created]
    rfl

end Builds

end Node

end Peerster
