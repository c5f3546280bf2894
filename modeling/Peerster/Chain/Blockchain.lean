import Peerster.Chain.Types

/-!
# Validation and application of transactions

The parts of `peer/impl/blockchain.go` that read and write the UTXO set: `findUTXO`, the switch of
`addBlockToBlockchain` over the transactions of a block, `validateTransaction` and `validateBlock`.

A call reads the clock and ranges over maps.  Both are the environment's choice (`Ambient`), so
what is proved for every `Ambient` holds at every time and for every iteration order.
-/

namespace Peerster

/-- The UTXO set: the record of every name. -/
abbrev UTXOSet := FinMap GoString UTXO

/-- The order in which loops visit the UTXO set. -/
abbrev UTXOOrder := FinMap.RangeOrder GoString UTXO

/-- What one call reads from its environment: `time.Now()`, and the order in which it ranges over
the UTXO set and over the mempool. -/
structure Ambient where
  now : Time
  utxoOrder : UTXOOrder
  txOrder : FinMap.RangeOrder GoString Transaction

/-! ## Hashes -/

/-- The encodings of a block's transactions one after the other, unless one fails. -/
def marshalTransactions (lib : Stdlib) : List Transaction → Option Bytes
  | [] => some []
  | tx :: txs => do
      let txBytes ← lib.marshalTransaction tx
      let rest ← marshalTransactions lib txs
      return txBytes ++ rest

/-- The byte string `computeBlockHash` hashes. -/
def blockPreimage (lib : Stdlib) (block : Block) : Option Bytes :=
  (marshalTransactions lib block.transactions).map fun txData =>
    itoa block.challenge ++ txData ++ block.prevBlockHash

/-- `computeBlockHash`, with `nil` as the empty slice. -/
def computeBlockHash (lib : Stdlib) (block : Block) : Bytes :=
  match blockPreimage lib block with
  | none => []
  | some data => (lib.sha256 data).1

/-- `hashDomain`. -/
def hashDomain (sha256 : Sha256) (salt domain : GoString) : GoString :=
  hexEncode (sha256 (salt ++ domain)).1

/-! ## The UTXO set -/

/-- `findUTXO`: the first record in iteration order with the wanted name and owner.  The flag and
the error of the source always agree. -/
def findUTXO (order : UTXOOrder) (utxoSet : UTXOSet) (utxoToFind : UTXO) : Except GoString UTXO :=
  match (FinMap.values order utxoSet).find? fun utxo =>
      utxo.domainName = utxoToFind.domainName ∧ utxo.owner = utxoToFind.owner with
  | some utxo => .ok utxo
  | none => .error (str "Input UTXO not found")

/-- `addUTXO`. -/
def addUTXO (utxoSet : UTXOSet) (domain : GoString) (utxo : UTXO) : UTXOSet :=
  utxoSet.add domain utxo

/-- `removeUTXO`. -/
def removeUTXO (utxoSet : UTXOSet) (domainName : GoString) : UTXOSet := utxoSet.remove domainName

/-- `newUTXO` of `addBlockToBlockchain`, the record a transaction produces. -/
def newUTXO (tx : Transaction) : UTXO where
  domainName := tx.output.domainName
  ip := tx.output.ip
  owner := tx.output.owner
  expiration := tx.output.expiration

/-- Consume the input record and produce the output record, as the cases `NameFirstUpdate` and
`NameUpdate` of `addBlockToBlockchain` both do. -/
def consumeUTXO (order : UTXOOrder) (utxoSet : UTXOSet) (tx : Transaction) (notFound : GoString) :
    Except GoString UTXOSet :=
  match findUTXO order utxoSet tx.input with
  | .error _ => .error notFound
  | .ok _ =>
      .ok (addUTXO (removeUTXO utxoSet tx.input.domainName) tx.output.domainName (newUTXO tx))

/-- One iteration of the loop of `addBlockToBlockchain`. -/
def applyTransaction (order : UTXOOrder) (utxoSet : UTXOSet) (tx : Transaction) :
    Except GoString UTXOSet :=
  match tx.type with
  | .nameNew => .ok (addUTXO utxoSet tx.output.domainName (newUTXO tx))
  | .nameFirstUpdate =>
      consumeUTXO order utxoSet tx (str "Input UTXO not found for NameFirstUpdate")
  | .nameUpdate => consumeUTXO order utxoSet tx (str "Input UTXO not found for NameUpdate")
  | .other _ => .ok utxoSet

/-- The loop of `addBlockToBlockchain`: the set it leaves behind, and the error it stops with. -/
def applyTransactions (order : UTXOOrder) : UTXOSet → List Transaction → UTXOSet × Option GoString
  | utxoSet, [] => (utxoSet, none)
  | utxoSet, tx :: txs =>
      match applyTransaction order utxoSet tx with
      | .error err => (utxoSet, some err)
      | .ok utxoSet' => applyTransactions order utxoSet' txs

/-! ## Validation -/

/-- The case `NameNew` of `validateTransaction`. -/
def validateNameNew (amb : Ambient) (utxoSet : UTXOSet) (tx : Transaction) :
    Except GoString Unit :=
  if tx.output.domainName.length = 0 then
    .error (str "Hashed domain is empty in NameNew")
  else if (FinMap.values amb.utxoOrder utxoSet).any
      fun utxo => utxo.domainName = tx.output.domainName then
    .error (str "Domain (hashed) already exists")
  else if tx.output.expiration < amb.now then
    .error (str "Expiration must be in the future for NameNew")
  else
    .ok ()

/-- The case `NameFirstUpdate` of `validateTransaction`.  The hash of the revealed domain is
computed and logged, and not compared with anything. -/
def validateNameFirstUpdate (lib : Stdlib) (amb : Ambient) (utxoSet : UTXOSet) (tx : Transaction) :
    Except GoString Unit :=
  match findUTXO amb.utxoOrder utxoSet tx.input with
  | .error _ => .error (str "Input UTXO not found for NameFirstUpdate")
  | .ok inputUTXO =>
      let _hashed := hashDomain lib.sha256 tx.salt tx.plainDomain
      match findUTXO amb.utxoOrder utxoSet inputUTXO with
      | .error err => .error err
      | .ok _nameNewUtxo =>
          if tx.output.domainName ≠ tx.plainDomain then
            .error (str "Output domain name must match the revealed plaintext domain")
          else if tx.output.expiration < inputUTXO.expiration then
            .error (str "NameFirstUpdate expiration must be greater than NameNew expiration")
          else if tx.output.expiration < amb.now then
            .error (str "NameFirstUpdate expiration must be in the future")
          else
            .ok ()

/-- The case `NameUpdate` of `validateTransaction`. -/
def validateNameUpdate (amb : Ambient) (utxoSet : UTXOSet) (tx : Transaction) :
    Except GoString Unit :=
  match findUTXO amb.utxoOrder utxoSet tx.input with
  | .error _ => .error (str "Input UTXO not found for NameUpdate")
  | .ok inputUTXO =>
      if tx.output.domainName ≠ inputUTXO.domainName then
        .error (str "NameUpdate cannot change the domain name")
      else if tx.output.expiration < inputUTXO.expiration then
        .error (str "NameUpdate expiration must be greater than previous expiration")
      else if tx.output.expiration < amb.now then
        .error (str "NameUpdate expiration must be in the future")
      else
        .ok ()

/-- `validateTransaction`. -/
def validateTransaction (lib : Stdlib) (amb : Ambient) (utxoSet : UTXOSet) (tx : Transaction) :
    Except GoString Unit :=
  if tx.id = [] then
    .error (str "Transaction ID is empty")
  else
    match tx.type with
    | .nameNew => validateNameNew amb utxoSet tx
    | .nameFirstUpdate => validateNameFirstUpdate lib amb utxoSet tx
    | .nameUpdate => validateNameUpdate amb utxoSet tx
    | .other _ => .error (str "Invalid transaction type")

/-- The loop of `validateBlock` from index `i` on.  Every transaction is checked against the same
set. -/
def validateTransactions (lib : Stdlib) (amb : Ambient) (utxoSet : UTXOSet) :
    Nat → List Transaction → Except GoString Unit
  | _, [] => .ok ()
  | i, tx :: txs =>
      match validateTransaction lib amb utxoSet tx with
      | .error err =>
          .error (str "Invalid transaction " ++ itoa i ++ str " in block: " ++ err)
      | .ok () => validateTransactions lib amb utxoSet (i + 1) txs

/-- `validateBlock`. -/
def validateBlock (lib : Stdlib) (amb : Ambient) (utxoSet : UTXOSet) (block : Block) :
    Except GoString Unit :=
  if block.transactions.length = 0 then
    .error (str "Block must have at least one transaction")
  else
    validateTransactions lib amb utxoSet 0 block.transactions

/-! ## Looking up a record -/

/-- Every record is stored under its own name. -/
def Keyed (utxoSet : UTXOSet) : Prop :=
  ∀ d u, utxoSet.get d = some u → u.domainName = d

/-- A record with the wanted name and owner is in the set, under whatever key. -/
def Holds (utxoSet : UTXOSet) (utxoToFind : UTXO) : Prop :=
  ∃ k u, utxoSet.get k = some u ∧ u.domainName = utxoToFind.domainName ∧
    u.owner = utxoToFind.owner

theorem findUTXO_ok {order : UTXOOrder} {utxoSet : UTXOSet} {query u : UTXO}
    (found : findUTXO order utxoSet query = .ok u) :
    (∃ k, utxoSet.get k = some u) ∧ u.domainName = query.domainName ∧ u.owner = query.owner := by
  unfold findUTXO at found
  split at found
  · next utxo hit =>
    cases found
    have wanted := List.find?_some hit
    simp only [decide_eq_true_eq] at wanted
    exact ⟨FinMap.mem_values.mp (List.mem_of_find?_eq_some hit), wanted⟩
  · cases found

theorem exists_findUTXO_iff (order : UTXOOrder) {utxoSet : UTXOSet} {query : UTXO} :
    (∃ u, findUTXO order utxoSet query = .ok u) ↔ Holds utxoSet query := by
  constructor
  · intro finds
    rcases finds with ⟨u, found⟩
    obtain ⟨⟨k, present⟩, wanted⟩ := findUTXO_ok found
    exact ⟨k, u, present, wanted⟩
  · intro entry
    rcases entry with ⟨k, u, present, name, owner⟩
    unfold findUTXO
    split
    · exact ⟨_, rfl⟩
    · next miss =>
      have refused := List.find?_eq_none.mp miss u (FinMap.mem_values.mpr ⟨k, present⟩)
      exact (refused (by simp [name, owner])).elim

theorem findUTXO_error_iff (order : UTXOOrder) {utxoSet : UTXOSet} {query : UTXO} :
    (∃ err, findUTXO order utxoSet query = .error err) ↔ ¬ Holds utxoSet query := by
  rw [← exists_findUTXO_iff order]
  cases findUTXO order utxoSet query <;> simp

/-- In a keyed set the lookup is a lookup by name, whatever the iteration order. -/
theorem findUTXO_ok_iff {order : UTXOOrder} {utxoSet : UTXOSet} {query u : UTXO}
    (keyed : Keyed utxoSet) :
    findUTXO order utxoSet query = .ok u ↔
      utxoSet.get query.domainName = some u ∧ u.owner = query.owner := by
  constructor
  · intro found
    obtain ⟨⟨k, present⟩, name, owner⟩ := findUTXO_ok found
    have key : k = query.domainName := (keyed k u present).symm.trans name
    exact ⟨key ▸ present, owner⟩
  · intro entry
    rcases entry with ⟨present, owner⟩
    obtain ⟨u', found⟩ := (exists_findUTXO_iff order).mpr
      ⟨query.domainName, u, present, keyed _ _ present, owner⟩
    obtain ⟨⟨k, present'⟩, name', -⟩ := findUTXO_ok found
    have key : k = query.domainName := (keyed k u' present').symm.trans name'
    rw [key, present] at present'
    cases present'
    exact found

theorem findUTXO_of_not_holds {order : UTXOOrder} {utxoSet : UTXOSet} {query : UTXO}
    (absent : ¬ Holds utxoSet query) :
    findUTXO order utxoSet query = .error (str "Input UTXO not found") := by
  cases found : findUTXO order utxoSet query with
  | ok u => exact (absent ((exists_findUTXO_iff order).mp ⟨u, found⟩)).elim
  | error err =>
      unfold findUTXO at found
      split at found
      · cases found
      · cases found
        rfl

/-- In a keyed set the lookup does not depend on the iteration order. -/
theorem findUTXO_order {order order' : UTXOOrder} {utxoSet : UTXOSet} {query : UTXO}
    (keyed : Keyed utxoSet) : findUTXO order utxoSet query = findUTXO order' utxoSet query := by
  by_cases holds : Holds utxoSet query
  · obtain ⟨u, found⟩ := (exists_findUTXO_iff order).mpr holds
    rw [found, (findUTXO_ok_iff keyed).mpr ((findUTXO_ok_iff keyed).mp found)]
  · rw [findUTXO_of_not_holds holds, findUTXO_of_not_holds holds]

theorem holds_iff_of_keyed {utxoSet : UTXOSet} {query : UTXO} (keyed : Keyed utxoSet) :
    Holds utxoSet query ↔
      ∃ u, utxoSet.get query.domainName = some u ∧ u.owner = query.owner := by
  constructor
  · intro entry
    rcases entry with ⟨k, u, present, name, owner⟩
    have key : k = query.domainName := (keyed k u present).symm.trans name
    exact ⟨u, key ▸ present, owner⟩
  · intro entry
    rcases entry with ⟨u, present, owner⟩
    exact ⟨query.domainName, u, present, keyed _ _ present, owner⟩

end Peerster
