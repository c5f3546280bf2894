import Peerster.Chain.Application
import Peerster.Chain.Replicas

/-!
# What a block hash commits to

`computeBlockHash` hashes the challenge, the transactions and the parent, which the preimage
determines (`preimage_unambiguous`).  Two blocks with one preimage have the same transactions, so
`validateBlock` gives them the same verdict.  Applying a block also reads its nonce, which is not
hashed, although the comment on `Block` lists it: a block with nonce 0 is taken for genesis and its
transactions are skipped.
-/

namespace Peerster

/-- What the preimage relies on of the JSON texts of the transactions `ts`: each is an object, and
none of them begins with the text of another. -/
structure Encodings (lib : Stdlib) (ts : List Transaction) : Prop where
  opens : ∀ t ∈ ts, ∀ data, lib.marshalTransaction t = some data → ∃ rest, data = 123 :: rest
  apart : ∀ t ∈ ts, ∀ t' ∈ ts, ∀ data data', lib.marshalTransaction t = some data →
    lib.marshalTransaction t' = some data' → data <+: data' → t = t'

theorem Encodings.mono {lib : Stdlib} {ts ts' : List Transaction} (encodings : Encodings lib ts)
    (subset : ts' ⊆ ts) : Encodings lib ts' where
  opens t mem := encodings.opens t (subset mem)
  apart t mem t' mem' := encodings.apart t (subset mem) t' (subset mem')

section Transactions

variable {lib : Stdlib}

theorem marshalTransactions_cons {t : Transaction} {ts : List Transaction} {data : Bytes}
    (encoded : marshalTransactions lib (t :: ts) = some data) :
    ∃ head rest, lib.marshalTransaction t = some head ∧ marshalTransactions lib ts = some rest ∧
      data = head ++ rest := by
  simp only [marshalTransactions, Option.bind_eq_bind, Option.bind_eq_some_iff,
    Option.pure_def, Option.some.injEq] at encoded
  obtain ⟨head, here, rest, later, rfl⟩ := encoded
  exact ⟨head, rest, here, later, rfl⟩

/-- The texts of transactions in a row are empty or begin with a brace. -/
theorem marshalTransactions_opens {ts : List Transaction} {data : Bytes}
    (encodings : Encodings lib ts) (encoded : marshalTransactions lib ts = some data) :
    ts = [] ∧ data = [] ∨ ∃ rest, data = 123 :: rest := by
  cases ts with
  | nil =>
      cases encoded
      exact .inl ⟨rfl, rfl⟩
  | cons t ts =>
      obtain ⟨head, rest, here, -, rfl⟩ := marshalTransactions_cons encoded
      obtain ⟨tail, rfl⟩ := encodings.opens t List.mem_cons_self head here
      exact .inr ⟨tail ++ rest, rfl⟩

/-- Transactions are determined by their texts in a row. -/
theorem marshalTransactions_injective {ts ts' : List Transaction} {data : Bytes}
    (encodings : Encodings lib (ts ++ ts')) (encoded : marshalTransactions lib ts = some data)
    (encoded' : marshalTransactions lib ts' = some data) : ts = ts' := by
  induction ts generalizing ts' data with
  | nil =>
      cases encoded
      rcases marshalTransactions_opens encodings encoded' with ⟨none, -⟩ | ⟨rest, brace⟩
      · exact none.symm
      · cases brace
  | cons t ts ih =>
      cases ts' with
      | nil =>
          cases encoded'
          have left : Encodings lib (t :: ts) := encodings.mono (List.subset_append_left _ _)
          rcases marshalTransactions_opens left encoded with ⟨none, -⟩ | ⟨rest, brace⟩
          · exact none
          · cases brace
      | cons t' ts' =>
          obtain ⟨head, rest, here, later, rfl⟩ := marshalTransactions_cons encoded
          obtain ⟨head', rest', here', later', same⟩ := marshalTransactions_cons encoded'
          have mem : t ∈ t :: ts ++ t' :: ts' := List.mem_cons_self
          have mem' : t' ∈ t :: ts ++ t' :: ts' :=
            List.mem_append_right _ List.mem_cons_self
          have first : t = t' := by
            rcases List.append_eq_append_iff.mp same with ⟨more, longer, -⟩ | ⟨more, longer, -⟩
            · exact encodings.apart t mem t' mem' head head' here here' ⟨more, longer.symm⟩
            · exact (encodings.apart t' mem' t mem head' head here' here ⟨more, longer.symm⟩).symm
          subst first
          have heads : head = head' := Option.some.inj (here.symm.trans here')
          subst heads
          have tails : rest = rest' := List.append_cancel_left same
          subst tails
          have subset : ts ++ ts' ⊆ t :: ts ++ t :: ts' := by
            intro x inside
            rcases List.mem_append.mp inside with left | right
            · exact List.mem_append_left _ (List.mem_cons_of_mem t left)
            · exact List.mem_append_right _ (List.mem_cons_of_mem t right)
          rw [ih (encodings.mono subset) later later']

/-- Two numbers, each followed by nothing or by a brace: what follows is the same. -/
theorem eq_of_number_append {x x' data data' : Bytes} (plain' : 123 ∉ x')
    (opens : data = [] ∨ ∃ rest, data = 123 :: rest) (longer : ∃ more, x' = x ++ more)
    (same : x ++ data = x' ++ data') : data = data' := by
  obtain ⟨more, rfl⟩ := longer
  rw [List.append_assoc, List.append_cancel_left_eq] at same
  cases more with
  | nil => exact same
  | cons byte more =>
      rcases opens with rfl | ⟨rest, rfl⟩
      · cases same
      · have brace : 123 = byte := (List.cons.inj same).1
        rw [← brace] at plain'
        exact (plain' (List.mem_append_right _ List.mem_cons_self)).elim

end Transactions

/-- Blocks with 32-byte parents and one preimage agree on each of its three parts. -/
theorem parts_of_preimage {lib : Stdlib} {block block' : Block} {data : Bytes}
    (parent : block.prevBlockHash.length = 32) (parent' : block'.prevBlockHash.length = 32)
    (preimage : blockPreimage lib block = some data)
    (preimage' : blockPreimage lib block' = some data)
    (encodings : Encodings lib (block.transactions ++ block'.transactions)) :
    itoa block.challenge = itoa block'.challenge ∧
      (∃ txData, marshalTransactions lib block.transactions = some txData ∧
        marshalTransactions lib block'.transactions = some txData) ∧
      block.prevBlockHash = block'.prevBlockHash := by
  obtain ⟨txData, encoded, rfl⟩ := Option.map_eq_some_iff.mp preimage
  obtain ⟨txData', encoded', same⟩ := Option.map_eq_some_iff.mp preimage'
  obtain ⟨numbered, parents⟩ := List.append_inj' same (by rw [parent, parent'])
  replace numbered : itoa block.challenge ++ txData = itoa block'.challenge ++ txData' :=
    numbered.symm
  have left : Encodings lib block.transactions := encodings.mono (List.subset_append_left _ _)
  have right : Encodings lib block'.transactions := encodings.mono (List.subset_append_right _ _)
  have opens : txData = [] ∨ ∃ rest, txData = 123 :: rest := by
    rcases marshalTransactions_opens left encoded with ⟨-, none⟩ | brace
    · exact .inl none
    · exact .inr brace
  have opens' : txData' = [] ∨ ∃ rest, txData' = 123 :: rest := by
    rcases marshalTransactions_opens right encoded' with ⟨-, none⟩ | brace
    · exact .inl none
    · exact .inr brace
  have texts : txData = txData' := by
    rcases List.append_eq_append_iff.mp numbered with ⟨more, longer, -⟩ | ⟨more, longer, -⟩
    · exact eq_of_number_append (brace_not_mem_itoa _) opens ⟨more, longer⟩ numbered
    · exact (eq_of_number_append (brace_not_mem_itoa _) opens' ⟨more, longer⟩ numbered.symm).symm
  rw [← texts] at encoded' numbered
  exact ⟨List.append_cancel_right numbered, ⟨txData, encoded, encoded'⟩, parents.symm⟩

/-- Blocks with 32-byte parents and one preimage have the same transactions. -/
theorem transactions_eq_of_preimage {lib : Stdlib} {block block' : Block} {data : Bytes}
    (parent : block.prevBlockHash.length = 32) (parent' : block'.prevBlockHash.length = 32)
    (preimage : blockPreimage lib block = some data)
    (preimage' : blockPreimage lib block' = some data)
    (encodings : Encodings lib (block.transactions ++ block'.transactions)) :
    block.transactions = block'.transactions := by
  obtain ⟨-, ⟨txData, encoded, encoded'⟩, -⟩ :=
    parts_of_preimage parent parent' preimage preimage' encodings
  exact marshalTransactions_injective encodings encoded encoded'

/-- **The preimage is unambiguous**: it fixes the challenge, the transactions and the parent. -/
theorem preimage_unambiguous (lib : Stdlib) (block block' : Block) (data : Bytes)
    (parent : block.prevBlockHash.length = 32) (parent' : block'.prevBlockHash.length = 32)
    (preimage : blockPreimage lib block = some data)
    (preimage' : blockPreimage lib block' = some data)
    (encodings : Encodings lib (block.transactions ++ block'.transactions)) :
    block.challenge = block'.challenge ∧ block.transactions = block'.transactions ∧
      block.prevBlockHash = block'.prevBlockHash := by
  obtain ⟨numbers, -, parents⟩ := parts_of_preimage parent parent' preimage preimage' encodings
  have transactions := transactions_eq_of_preimage parent parent' preimage preimage' encodings
  exact ⟨itoa_injective numbers, transactions, parents⟩

/-- The text of the miner's transaction opens with a brace, and there is no other in the block. -/
theorem encodings_block1 : Encodings minersLib (block1.transactions ++ block1.transactions) := by
  have only : ∀ t ∈ block1.transactions ++ block1.transactions, t = claim1 := by decide +kernel
  refine ⟨fun t mem data encoded => ?_, fun t mem t' mem' _ _ _ _ _ => ?_⟩
  · rw [only t mem] at encoded
    have text : minersLib.marshalTransaction claim1 =
        some (123 :: (registrationJson "tx2149" "owner1").tail) := by decide +kernel
    exact ⟨_, Option.some.inj (encoded.symm.trans text)⟩
  · rw [only t mem, only t' mem']

/-- The block of a miner and its copy under another hash and nonce. -/
theorem unambiguous_renumbered :
    block1.challenge = ({ block1 with hash := [], nonce := 7 } : Block).challenge ∧
      block1.transactions = ({ block1 with hash := [], nonce := 7 } : Block).transactions ∧
      block1.prevBlockHash = ({ block1 with hash := [], nonce := 7 } : Block).prevBlockHash :=
  preimage_unambiguous minersLib block1 { block1 with hash := [], nonce := 7 } _ rfl rfl
    (Option.some_get (by decide +kernel)).symm (Option.some_get (by decide +kernel)).symm
    encodings_block1

/-! ## Verdict and effect -/

namespace Node

/-- `validateBlock` gives both blocks the same verdict on a UTXO set, and adding them to a node with
that set gives the same UTXO set and the same error, if any. -/
def SameEffect (lib : Stdlib) (amb : Ambient) (s : UTXOSet) (block block' : Block) : Prop :=
  validateBlock lib amb s block = validateBlock lib amb s block' ∧
    ∀ n : Node, n.utxoSet = s →
      (addBlockToBlockchain lib amb.utxoOrder n block).1.utxoSet =
          (addBlockToBlockchain lib amb.utxoOrder n block').1.utxoSet ∧
        ∀ err, (addBlockToBlockchain lib amb.utxoOrder n block).2 = .error err ↔
          (addBlockToBlockchain lib amb.utxoOrder n block').2 = .error err

/-- Blocks with the same transactions have the same effect exactly when `applyBlock` does the same
with them. -/
theorem sameEffect_iff_applyBlock {lib : Stdlib} {amb : Ambient} {s : UTXOSet}
    {block block' : Block} (same : block.transactions = block'.transactions) :
    SameEffect lib amb s block block' ↔
      applyBlock amb.utxoOrder s block = applyBlock amb.utxoOrder s block' := by
  have verdict : validateBlock lib amb s block = validateBlock lib amb s block' := by
    simp only [validateBlock, same]
  constructor
  · intro effect
    obtain ⟨sets, errors⟩ := effect.2 { newPeer ⟨.inmemory, .empty⟩ with utxoSet := s } rfl
    simp only [addBlockToBlockchain_utxoSet, addBlockToBlockchain_returns_error_iff]
      at sets errors
    exact Prod.ext sets (Option.ext errors)
  · intro applied
    refine ⟨verdict, fun n here => ?_⟩
    rw [addBlockToBlockchain_utxoSet, addBlockToBlockchain_utxoSet, here, applied]
    refine ⟨rfl, fun err => ?_⟩
    rw [addBlockToBlockchain_returns_error_iff, addBlockToBlockchain_returns_error_iff, here,
      applied]

/-- Applying the transactions meets no error and changes nothing exactly when each finds its input
and every name ends with the entry it had. -/
theorem applyTransactions_eq_self_iff (order : UTXOOrder) {s : UTXOSet} {ts : List Transaction} :
    applyTransactions order s ts = (s, none) ↔
      (∀ before t after, ts = before ++ t :: after → ¬ Stuck s before t) ∧
        ∀ d, entryAfter s ts d = s.get d := by
  constructor
  · intro unchanged
    have ok : (applyTransactions order s ts).2 = none := by rw [unchanged]
    refine ⟨applyTransactions_ok_iff.mp ok, fun d => ?_⟩
    rw [entryAfter, ← applyTransactions_get ok, unchanged]
  · intro condition
    have ok : (applyTransactions order s ts).2 = none := applyTransactions_ok_iff.mpr condition.1
    refine Prod.ext (FinMap.ext fun d => ?_) ok
    rw [applyTransactions_get ok]
    exact condition.2 d

/-- **The hash and the effect.**  Two blocks with one preimage have the same effect exactly when
both or neither have nonce 0, or their transactions change nothing. -/
theorem sameEffect_iff (lib : Stdlib) (amb : Ambient) (s : UTXOSet) (block block' : Block)
    (data : Bytes) (parent : block.prevBlockHash.length = 32)
    (parent' : block'.prevBlockHash.length = 32)
    (preimage : blockPreimage lib block = some data)
    (preimage' : blockPreimage lib block' = some data)
    (encodings : Encodings lib (block.transactions ++ block'.transactions)) :
    SameEffect lib amb s block block' ↔
      ((block.nonce = 0 ↔ block'.nonce = 0) ∨
        (∀ before t after, block.transactions = before ++ t :: after → ¬ Stuck s before t) ∧
          ∀ d, entryAfter s block.transactions d = s.get d) := by
  have same := transactions_eq_of_preimage parent parent' preimage preimage' encodings
  rw [sameEffect_iff_applyBlock same, ← applyTransactions_eq_self_iff amb.utxoOrder]
  unfold applyBlock
  rw [← same]
  by_cases zero : block.nonce = 0 <;> by_cases zero' : block'.nonce = 0 <;>
    simp [zero, zero', eq_comm]

/-- The block of a miner under another hash and nonce. -/
theorem sameEffect_renumbered :
    SameEffect minersLib (sampleAmbient 0) .empty block1 { block1 with hash := [], nonce := 7 } :=
  (sameEffect_iff minersLib (sampleAmbient 0) .empty block1
    { block1 with hash := [], nonce := 7 } _ rfl rfl (Option.some_get (by decide +kernel)).symm
    (Option.some_get (by decide +kernel)).symm encodings_block1).mpr (.inl (by decide))

/-- With nonce 0 the block has the same preimage and registers nothing. -/
theorem nonce_zero_registers_nothing :
    blockPreimage minersLib { block1 with nonce := 0 } = blockPreimage minersLib block1 ∧
      block1.prevBlockHash.length = 32 ∧
      ¬ SameEffect minersLib (sampleAmbient 0) .empty { block1 with nonce := 0 } block1 := by
  refine ⟨rfl, rfl, fun effect => ?_⟩
  have sets := (effect.2 (newPeer sampleStore) rfl).1
  have records := congrArg (fun s => s.get (str "example.com")) sets
  revert records
  decide +kernel

end Node

end Peerster
