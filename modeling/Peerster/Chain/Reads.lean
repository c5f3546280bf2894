import Peerster.Chain.Touches
import Peerster.Gossip.Handlers

/-!
# Reading names

`handleDNSReadRequestMessage` (`handlers.go`).  The listener, which runs it, and the miner, which
applies a block, have only the lock of the map in common.  So a read may come between any two
accesses of a block to the UTXO set (`Access`).  An update takes its input out before it puts its
output in, and a read in between does not find the name; any other read is answered with what the
last transaction executed so far has made of the name (`read_answer`).
-/

namespace Peerster

open LastTouch

/-- `DNSReadRequestMessage`. -/
structure DNSReadRequest where
  domain : GoString
  ttl : Int

/-- `DNSReadReplyMessage`. -/
structure DNSReadReply where
  domain : GoString
  ipAddress : GoString
  ttl : Int
  owner : GoString
  «exists» : Bool
  expiration : Time
  deriving DecidableEq

/-- What `handleDNSReadRequestMessage` makes of the record that it has looked up: the address it
sends to, with the header and the reply, or the error it returns. -/
def answer (c : Gossip.SendChoice) (address source domain : GoString) :
    Option UTXO → Except GoString (GoString × Gossip.Header × DNSReadReply)
  | none => .error (str "Domain " ++ domain ++ str " not found")
  | some utxo =>
      let dnsReadReply : DNSReadReply :=
        ⟨utxo.domainName, utxo.ip, 0, utxo.owner, true, utxo.expiration⟩
      match c.marshalError with
      | some err => .error err
      | none =>
          let header : Gossip.Header := ⟨c.packetID, address, address, source⟩
          match c.sendError with
          | some err => .error err
          | none => .ok (source, header, dnsReadReply)

/-- `handleDNSReadRequestMessage` of the node with the given address, on a request from `source`. -/
def Node.handleDNSReadRequestMessage (n : Node) (c : Gossip.SendChoice) (address source : GoString)
    (request : DNSReadRequest) : Except GoString (GoString × Gossip.Header × DNSReadReply) :=
  answer c address source request.domain (n.utxoSet.get request.domain)

/-! ## A block, access by access -/

/-- An access that changes the UTXO set. -/
inductive Access : Type
  | remove (domainName : GoString)
  | add (domain : GoString) (utxo : UTXO)
  deriving DecidableEq

/-- The set after an access. -/
def Access.apply (utxoSet : UTXOSet) : Access → UTXOSet
  | .remove domainName => removeUTXO utxoSet domainName
  | .add domain utxo => addUTXO utxoSet domain utxo

/-- The accesses of a transaction that is executed, in order. -/
def Transaction.accesses (t : Transaction) : List Access :=
  match t.type with
  | .nameNew => [.add t.output.domainName (newUTXO t)]
  | .nameFirstUpdate | .nameUpdate =>
      [.remove t.input.domainName, .add t.output.domainName (newUTXO t)]
  | .other _ => []

/-- The transactions that are executed when a block is added to a set. -/
def blockExecuted (order : UTXOOrder) (s : UTXOSet) (block : Block) : List Transaction :=
  if block.nonce = 0 then [] else executed order s block.transactions

/-- The accesses of a block that is added to a set. -/
def blockAccesses (order : UTXOOrder) (s : UTXOSet) (block : Block) : List Access :=
  (blockExecuted order s block).flatMap Transaction.accesses

theorem consumeUTXO_accesses {order : UTXOOrder} {s s' : UTXOSet} {t : Transaction}
    {notFound : GoString} (applied : consumeUTXO order s t notFound = .ok s') :
    s' = [Access.remove t.input.domainName,
      .add t.output.domainName (newUTXO t)].foldl Access.apply s := by
  unfold consumeUTXO at applied
  split at applied
  · cases applied
  · cases applied
    rfl

theorem applyTransaction_accesses {order : UTXOOrder} {s s' : UTXOSet} {t : Transaction}
    (applied : applyTransaction order s t = .ok s') : s' = t.accesses.foldl Access.apply s := by
  unfold applyTransaction at applied
  unfold Transaction.accesses
  cases type : t.type with
  | nameNew =>
      rw [type] at applied
      cases applied
      rfl
  | nameFirstUpdate =>
      rw [type] at applied
      exact consumeUTXO_accesses applied
  | nameUpdate =>
      rw [type] at applied
      exact consumeUTXO_accesses applied
  | other name =>
      rw [type] at applied
      cases applied
      rfl

/-- The loop of `addBlockToBlockchain` is its accesses. -/
theorem applyTransactions_accesses (order : UTXOOrder) (s : UTXOSet) (ts : List Transaction) :
    (applyTransactions order s ts).1 =
      ((executed order s ts).flatMap Transaction.accesses).foldl Access.apply s := by
  induction ts generalizing s with
  | nil => rfl
  | cons t ts ih =>
      unfold applyTransactions executed
      cases applied : applyTransaction order s t with
      | error err => rfl
      | ok s' =>
          dsimp only
          rw [List.flatMap_cons, List.foldl_append, ← applyTransaction_accesses applied, ih]

theorem applyBlock_accesses (order : UTXOOrder) (s : UTXOSet) (block : Block) :
    (Node.applyBlock order s block).1 = (blockAccesses order s block).foldl Access.apply s := by
  unfold Node.applyBlock blockAccesses blockExecuted
  split
  · rfl
  · exact applyTransactions_accesses order s block.transactions

/-! ## In the middle of a block -/

/-- The accesses of a transaction do what its effect says. -/
theorem get_accesses (s : UTXOSet) (t : Transaction) (d : GoString) :
    (t.accesses.foldl Access.apply s).get d = (t.effect d).getD (s.get d) := by
  unfold Transaction.accesses Transaction.effect
  cases t.type with
  | other name => rfl
  | _ =>
      simp only [List.foldl_cons, List.foldl_nil, Access.apply, addUTXO, removeUTXO, newUTXO_eq,
        FinMap.get_add, FinMap.get_remove, eq_comm (a := d)]
      split
      · rfl
      · first | rfl | (split <;> rfl)

theorem get_flatMap_accesses (s : UTXOSet) (ts : List Transaction) (d : GoString) :
    ((ts.flatMap Transaction.accesses).foldl Access.apply s).get d =
      (lastTouch Transaction.effect ts d).getD (s.get d) := by
  induction ts generalizing s with
  | nil => rfl
  | cons t ts ih =>
      rw [List.flatMap_cons, List.foldl_append, ih, get_accesses, lastTouch_cons]
      cases lastTouch Transaction.effect ts d <;> rfl

theorem prefix_transaction_accesses {t : Transaction} {accesses : List Access}
    (during : accesses <+: t.accesses) :
    accesses = [] ∨ accesses = t.accesses ∨
      t.consumes = true ∧ accesses = [.remove t.input.domainName] := by
  unfold Transaction.accesses Transaction.consumes at *
  cases type : t.type with
  | nameNew =>
      simp only [type] at during
      rcases List.prefix_cons_iff.mp during with none | ⟨more, rfl, rest⟩
      · exact .inl none
      · rw [List.prefix_nil.mp rest]
        exact .inr (.inl rfl)
  | other name =>
      simp only [type, List.prefix_nil] at during
      exact .inl during
  | _ =>
      simp only [type] at during
      rcases List.prefix_cons_iff.mp during with none | ⟨more, rfl, rest⟩
      · exact .inl none
      · rcases List.prefix_cons_iff.mp rest with rfl | ⟨more', rfl, rest'⟩
        · exact .inr (.inr ⟨rfl, rfl⟩)
        · rw [List.prefix_nil.mp rest']
          exact .inr (.inl rfl)

/-- The first accesses of a list of transactions are those of its first transactions, and perhaps
the removal that the next one begins with. -/
theorem prefix_accesses {ts : List Transaction} {accesses : List Access}
    (during : accesses <+: ts.flatMap Transaction.accesses) :
    ∃ done rest, ts = done ++ rest ∧ (accesses = done.flatMap Transaction.accesses ∨
      ∃ t later, rest = t :: later ∧ t.consumes = true ∧
        accesses = done.flatMap Transaction.accesses ++ [.remove t.input.domainName]) := by
  induction ts generalizing accesses with
  | nil => exact ⟨[], [], rfl, .inl (List.prefix_nil.mp during)⟩
  | cons t ts ih =>
      rw [List.flatMap_cons] at during
      rcases List.prefix_or_prefix_of_prefix during (List.prefix_append _ _) with inside | beyond
      · rcases prefix_transaction_accesses inside with rfl | rfl | ⟨consumes, rfl⟩
        · exact ⟨[], t :: ts, rfl, .inl rfl⟩
        · exact ⟨[t], ts, rfl, .inl (List.append_nil _).symm⟩
        · exact ⟨[], t :: ts, rfl, .inr ⟨t, ts, rfl, consumes, rfl⟩⟩
      · obtain ⟨more, rfl⟩ := beyond
        obtain ⟨done, rest, rfl, boundary⟩ := ih ((List.prefix_append_right_inj _).mp during)
        refine ⟨t :: done, rest, rfl, ?_⟩
        rcases boundary with rfl | ⟨t', later, rfl, consumes, rfl⟩
        · exact .inl rfl
        · exact .inr ⟨t', later, rfl, consumes, (List.append_assoc _ _ _).symm⟩

namespace Node

/-- **What a read is answered with.**  After any run, and after any number of the accesses of a
block that is being added: a read is answered with what the last of the transactions executed so
far has made of the name, or it says that the name is not found while the next one is halfway
through consuming it. -/
theorem read_answer (lib : Stdlib) (order : UTXOOrder) (bcStore : Store) (es : List Event)
    (order' : UTXOOrder) (block : Block) (accesses : List Access) (c : Gossip.SendChoice)
    (address source : GoString) (request : DNSReadRequest) :
    let n := afterEvents lib order bcStore es
    let answered := { n with utxoSet := accesses.foldl Access.apply n.utxoSet }
      |>.handleDNSReadRequestMessage c address source request
    accesses <+: blockAccesses order' n.utxoSet block →
    ∃ done rest, blockExecuted order' n.utxoSet block = done ++ rest ∧
      (answered = answer c address source request.domain
          ((lastTouch Transaction.effect (history lib order bcStore es ++ done)
            request.domain).getD none) ∨
        answered = answer c address source request.domain none ∧
          ∃ t later, rest = t :: later ∧ t.consumes = true ∧
            t.input.domainName = request.domain) := by
  intro n answered during
  obtain ⟨done, rest, split, boundary⟩ := prefix_accesses during
  have entry : ((done.flatMap Transaction.accesses).foldl Access.apply n.utxoSet).get
      request.domain = (lastTouch Transaction.effect (history lib order bcStore es ++ done)
        request.domain).getD none := by
    rw [get_flatMap_accesses, afterEvents_get, lastTouch_append]
    cases lastTouch Transaction.effect done request.domain <;> rfl
  refine ⟨done, rest, split, ?_⟩
  rcases boundary with rfl | ⟨t, later, rfl, consumes, rfl⟩
  · left
    dsimp only [answered, handleDNSReadRequestMessage]
    rw [entry]
  · dsimp only [answered, handleDNSReadRequestMessage]
    rw [List.foldl_append, List.foldl_cons, List.foldl_nil, Access.apply, removeUTXO,
      FinMap.get_remove, entry]
    by_cases own : request.domain = t.input.domainName
    · exact .inr ⟨by rw [if_pos own], t, later, rfl, consumes, own.symm⟩
    · exact .inl (by rw [if_neg own])

/-- A renewal of `example.com`. -/
def renewal : Block :=
  sampleBlock 2 [sampleTx .nameUpdate "tx2" (sampleUTXO "example.com" "owner1" 10)
    (sampleUTXO "example.com" "owner1" 20)]

/-- Halfway through the renewal the node says that the name is not found. -/
theorem read_halfway :
    let n := afterEvents (sampleLib [registration, renewal]) .sorted sampleStore
      (deliver [registration])
    let answered := { n with
        utxoSet := [Access.remove (str "example.com")].foldl Access.apply n.utxoSet }
      |>.handleDNSReadRequestMessage Gossip.sampleSend (str "A") (str "B") ⟨str "example.com", 0⟩
    answered = .error (str "Domain example.com not found") ∧
      ∃ done rest, blockExecuted .sorted n.utxoSet renewal = done ++ rest ∧
        (answered = answer Gossip.sampleSend (str "A") (str "B") (str "example.com")
            ((lastTouch Transaction.effect (history (sampleLib [registration, renewal]) .sorted
              sampleStore (deliver [registration]) ++ done) (str "example.com")).getD none) ∨
          answered = answer Gossip.sampleSend (str "A") (str "B") (str "example.com") none ∧
            ∃ t later, rest = t :: later ∧ t.consumes = true ∧
              t.input.domainName = str "example.com") := by
  intro n answered
  refine ⟨by decide +kernel, read_answer (sampleLib [registration, renewal]) .sorted sampleStore
    (deliver [registration]) .sorted renewal [.remove (str "example.com")] Gossip.sampleSend
    (str "A") (str "B") ⟨str "example.com", 0⟩ ?_⟩
  exact ⟨[.add (str "example.com") (sampleUTXO "example.com" "owner1" 20)], by decide +kernel⟩

end Node

end Peerster
