import Peerster.Bytes
import Peerster.Storage

/-!
# Transactions and blocks

`types/new_types.go`.  A `TransactionType` is a string in the source, compared with three
constants; every other string is `other`.  `time.Time` is an instant, an integer number of
nanoseconds.  A block holds pointers to transactions; a `nil` among them makes the handler panic
before it changes anything, which the registry turns into an error, so blocks here hold
transactions.
-/

namespace Peerster

abbrev Time := Int

/-- `TransactionType`. -/
inductive TransactionType : Type
  | nameNew
  | nameFirstUpdate
  | nameUpdate
  | other (name : GoString)
  deriving DecidableEq, Repr

/-- `UTXO`, an unspent transaction output: the record of a name. -/
structure UTXO where
  domainName : GoString
  ip : GoString
  owner : GoString
  expiration : Time
  deriving DecidableEq, Repr

/-- The zero value of `UTXO`; the zero `time.Time` is January 1 of year 1. -/
def UTXO.zero : UTXO := ⟨[], [], [], -62135596800000000000⟩

/-- `Transaction`. -/
structure Transaction where
  id : GoString
  type : TransactionType
  input : UTXO
  output : UTXO
  plainDomain : GoString
  salt : GoString
  hashedDomain : GoString
  fees : Nat
  deriving DecidableEq, Repr

/-- `Block`. -/
structure Block where
  hash : Bytes
  prevBlockHash : Bytes
  nonce : Int
  challenge : Int
  transactions : List Transaction
  deriving DecidableEq, Repr

/-- The standard-library functions the chain code calls: SHA-256 and the JSON encoding of
transactions and blocks, where `none` is an error. -/
structure Stdlib where
  sha256 : Sha256
  marshalTransaction : Transaction → Option Bytes
  marshalBlock : Block → Option Bytes
  unmarshalBlock : Bytes → Option Block

/-- `storage.LastBlockKey`. -/
def lastBlockKey : GoString := List.replicate 64 48

theorem takes_lastBlockKey (s : Store) : s.takes lastBlockKey = true := by
  unfold Store.takes
  cases s.backend with
  | inmemory => rfl
  | file => decide +kernel

end Peerster
