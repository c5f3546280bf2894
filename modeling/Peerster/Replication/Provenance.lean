import Peerster.Chain.Ownership
import Peerster.Replication.Following

/-!
# Where transactions come from

Runs in which any number of nodes mine.  A transaction gets into a mempool from a message, from
there into a block that is mined, and with the block's message into other chains; so everything that
the nodes hold comes from messages that callers have handed to a node (`reachable_traced`).  No
rumor, no retransmission, no block and no call that fails halfway makes a record of its own. -/

namespace Peerster.Replication

/-- The transactions that a message brings. -/
def Env.brings (env : Env) : Gossip.Payload → List Transaction
  | .other type content =>
      if type = blockType then
        match env.blockMessage content with
        | .error _ => []
        | .ok block => block.transactions
      else if type = transactionType then
        match env.transactionMessage content with
        | .error _ => []
        | .ok tx => [tx]
      else []
  | .privateMessage _ msg => env.brings msg
  | .status _ => []
  | .ack _ _ => []

/-- All transactions that a message brings have the property `P`. -/
def Brings (env : Env) (P : Transaction → Prop) (msg : Gossip.Payload) : Prop :=
  ∀ t ∈ env.brings msg, P t

theorem brings_closed (env : Env) (P : Transaction → Prop) : Gossip.Closed (Brings env P) where
  status _ _ mem := by cases mem
  ack _ _ _ mem := by cases mem

/-! ## Chains -/

/-- All transactions that a node holds, and the transactions that its records are from, have the
property `P`. -/
structure Traced (P : Transaction → Prop) (n : Node) : Prop where
  offers : n.Offers P
  records : ∀ d u, n.utxoSet.get d = some u → ∃ t, P t ∧ t.output = u ∧ t.output.domainName = d

section Traced

variable {env : Env} {lib : Stdlib} {P : Transaction → Prop} {n : Node}

theorem start_traced (lib : Stdlib) (order : UTXOOrder) (bcStore : Store)
    (P : Transaction → Prop) : Traced P (Node.start lib order (Node.newPeer bcStore)) := by
  refine ⟨Node.start_offers lib order bcStore P, fun d u present => ?_⟩
  rw [Node.start_utxoSet] at present
  cases present

theorem mem_of_mem_executed {order : UTXOOrder} {s : UTXOSet} {ts : List Transaction}
    {t : Transaction} (mem : t ∈ executed order s ts) : t ∈ ts := by
  induction ts generalizing s with
  | nil => exact mem
  | cons t' ts ih =>
      unfold executed at mem
      split at mem
      · cases mem
      · rcases List.mem_cons.mp mem with rfl | later
        · exact List.mem_cons_self
        · exact List.mem_cons_of_mem t' (ih later)

/-- A record that is new after a block is the output of one of its transactions. -/
theorem records_applyBlock {order : UTXOOrder} {s : UTXOSet} {block : Block}
    (records : ∀ d u, s.get d = some u → ∃ t, P t ∧ t.output = u ∧ t.output.domainName = d)
    (brought : ∀ t ∈ block.transactions, P t) (d : GoString) (u : UTXO)
    (present : (Node.applyBlock order s block).1.get d = some u) :
    ∃ t, P t ∧ t.output = u ∧ t.output.domainName = d := by
  rw [Node.applyBlock_get] at present
  cases touched : LastTouch.lastTouch Transaction.effect
      (if block.nonce = 0 then [] else executed order s block.transactions) d with
  | none =>
      rw [touched] at present
      exact records d u present
  | some entry =>
      rw [touched, Option.getD_some] at present
      subst present
      obtain ⟨before, t, after, split, effect, -⟩ := LastTouch.lastTouch_eq_some.mp touched
      obtain ⟨output, name⟩ := Transaction.effect_eq_some_some effect
      have executes : t ∈ block.transactions := by
        have mem : t ∈ before ++ t :: after := List.mem_append_right _ List.mem_cons_self
        rw [← split] at mem
        split at mem
        · cases mem
        · exact mem_of_mem_executed mem
      exact ⟨t, brought t executes, output, name⟩

theorem Traced.addBlockToBlockchain (traced : Traced P n) (order : UTXOOrder) {block : Block}
    (brought : ∀ t ∈ block.transactions, P t) :
    Traced P (Node.addBlockToBlockchain lib order n block).1 := by
  refine ⟨traced.offers.of_same (fun id t held => ?_) (.inr ?_), ?_⟩
  · rw [Node.addBlockToBlockchain_mempool] at held
    exact held
  · exact Node.addBlockToBlockchain_mining lib order n block
  · rw [Node.addBlockToBlockchain_utxoSet]
    exact records_applyBlock traced.records brought

theorem Traced.removeTxs (traced : Traced P n) (txOrder : TxOrder) (txs : List Transaction) :
    Traced P { n with mempool := removeTxsFromMempool txOrder n.mempool txs } :=
  ⟨traced.offers.of_same (fun _ _ held => get_of_get_removeTxsFromMempool held) (.inr rfl),
    traced.records⟩

theorem Traced.handleTransactionMessage (traced : Traced P n) (amb : Ambient) {tx : Transaction}
    (brought : P tx) : Traced P (n.handleTransactionMessage lib amb tx).1 := by
  unfold Node.handleTransactionMessage
  split
  · exact traced
  · refine ⟨⟨fun id t held => ?_, traced.offers.mining⟩, traced.records⟩
    simp only [FinMap.get_add] at held
    split at held
    · cases held
      exact brought
    · exact traced.offers.mempool id t held

theorem Traced.handleBlockMessage (traced : Traced P n) (amb : Ambient) {block : Block}
    (brought : ∀ t ∈ block.transactions, P t) :
    Traced P (n.handleBlockMessage lib amb block).1 := by
  unfold Node.handleBlockMessage
  split
  · exact traced
  · have added : Traced P (Node.addBlockToBlockchain lib amb.utxoOrder n block).1 :=
      traced.addBlockToBlockchain amb.utxoOrder brought
    cases call : Node.addBlockToBlockchain lib amb.utxoOrder n block with
    | mk n' result =>
        rw [call] at added
        cases result with
        | ok => exact added.removeTxs amb.txOrder block.transactions
        | error err => exact added
        | hangs => exact ⟨⟨added.offers.mempool, added.offers.mining⟩, added.records⟩

/-- A message brings nothing but its transactions. -/
theorem Traced.process (traced : Traced P n) (env : Env) (amb : Ambient) (address : GoString)
    {msg : Gossip.Payload} (brings : Brings env P msg) :
    Traced P (env.process amb address n msg).1 := by
  induction msg with
  | status view => exact traced
  | ack ackedPacketID view => exact traced
  | privateMessage recipients msg ih =>
      unfold Env.process
      split
      · exact ih brings
      · exact traced
  | other type content =>
      unfold Brings Env.brings at brings
      unfold Env.process
      split
      · next isBlock =>
        rw [if_pos isBlock] at brings
        cases decoded : env.blockMessage content with
        | error err => exact traced
        | ok block =>
            rw [decoded] at brings
            exact traced.handleBlockMessage amb brings
      · next notBlock =>
        rw [if_neg notBlock] at brings
        split
        · next isTransaction =>
          rw [if_pos isTransaction] at brings
          cases decoded : env.transactionMessage content with
          | error err => exact traced
          | ok tx =>
              rw [decoded] at brings
              exact traced.handleTransactionMessage amb (brings tx List.mem_cons_self)
        · exact traced

theorem Traced.processAll (traced : Traced P n) (env : Env) (address : GoString)
    {ps : List Processing} (brings : ∀ p ∈ ps, Brings env P p.msg) :
    Traced P (env.processAll address n ps) := by
  induction ps generalizing n with
  | nil => exact traced
  | cons p ps ih =>
      exact ih (traced.process env p.amb address (brings p List.mem_cons_self))
        fun p' mem => brings p' (List.mem_cons_of_mem p mem)

/-- A candidate is filled from the mempool. -/
theorem Traced.startMining (traced : Traced P n) (lib : Stdlib) (amb : Ambient) :
    Traced P (n.step lib (.startMining amb)) := by
  simp only [Node.step]
  split
  · unfold Node.startMining
    split
    · exact traced
    · next tx txs taken =>
      refine ⟨⟨traced.offers.mempool, fun b candidate t mem => ?_⟩, traced.records⟩
      cases candidate
      obtain ⟨id, held⟩ := exists_get_of_mem_getTxsFromMempool (taken.symm ▸ mem)
      exact traced.offers.mempool id t held
  · exact traced

/-- A block is mined from the candidate. -/
theorem Traced.finishMining (traced : Traced P n) (lib : Stdlib) (amb : Ambient) (polls : Nat) :
    Traced P (n.step lib (.finishMining amb polls)) := by
  have idle : Traced P { n with mining := none } :=
    ⟨traced.offers.of_same (fun _ _ held => held) (.inl rfl), traced.records⟩
  simp only [Node.step]
  split
  · unfold Node.finishMining
    cases mined : n.minedBlock lib polls with
    | none => exact idle
    | some block =>
        have added : Traced P
            (Node.addBlockToBlockchain lib amb.utxoOrder { n with mining := none } block).1 :=
          idle.addBlockToBlockchain amb.utxoOrder (traced.offers.minedBlock mined)
        dsimp only
        cases call : Node.addBlockToBlockchain lib amb.utxoOrder { n with mining := none } block
          with
        | mk n' result =>
            rw [call] at added
            cases result with
            | ok => exact added.removeTxs amb.txOrder block.transactions
            | error err => exact added
            | hangs => exact ⟨⟨added.offers.mempool, added.offers.mining⟩, added.records⟩
  · exact traced

end Traced

/-! ## The system -/

/-- The messages that callers hand to a node in a step. -/
def submissions : Action → List Gossip.Payload
  | .gossip _ (.broadcast msg) => [msg]
  | .gossip _ (.sendPayload _ _ msg) => [msg]
  | _ => []

/-- The handlers of messages of other types send no transactions, and the message of a block that is
mined brings the transactions of the block. -/
def Honest (env : Env) (s : System) : Action → Prop
  | .deliver _ c _ => c.Sends fun msg => env.brings msg = []
  | .finishMining address amb polls =>
      ∀ order block msg,
        (s.chains address).applied env.lib (.finishMining amb polls) = some (order, block) →
          env.published (s.chains address) amb polls = some msg →
            env.brings msg ⊆ block.transactions
  | .gossip _ _ => True
  | .startMining _ _ => True

/-- All transactions in messages, and in and behind the chains, have the property `P`. -/
structure Provenance (env : Env) (P : Transaction → Prop) (s : System) : Prop where
  inv : s.net.Inv
  plain : s.net.Plain (Brings env P)
  broadcasts : ∀ o, ∀ msg ∈ s.net.broadcasts o, Brings env P msg
  chains : ∀ a, Traced P (s.chains a)

section Provenance

variable {env : Env} {P : Transaction → Prop} {s : System} {address : GoString}

theorem initial_provenance (env : Env) (P : Transaction → Prop) (ackTimeout : GoString → Nat)
    (order : GoString → UTXOOrder) (bcStore : GoString → Store) :
    Provenance env P (initial env ackTimeout order bcStore) where
  inv := Gossip.Network.initial_inv ackTimeout
  plain := Gossip.Network.initial_plain _ ackTimeout
  broadcasts _ _ mem := by cases mem
  chains a := start_traced env.lib (order a) (bcStore a) P

namespace Provenance

theorem chain (known : Provenance env P s) {n : Node} (traced : Traced P n) :
    ∀ a, Traced P (Function.update s.chains address n a) :=
  (Function.forall_update_iff s.chains fun _ n => Traced P n).mpr
    ⟨traced, fun other _ => known.chains other⟩

/-- What gossip does of its own brings only what is broadcast or sent. -/
theorem act (known : Provenance env P s) {e : Gossip.Event} {chains : GoString → Node}
    (sends : e.Sends (Brings env P)) (issues : ∀ msg, e = .broadcast msg → Brings env P msg)
    (traced : ∀ a, Traced P (chains a)) :
    Provenance env P ⟨s.net.step (.act address e), chains⟩ := by
  have sends' : Gossip.Network.Action.Sends (Brings env P) (.act address e) := sends
  have inv := known.inv.step (.act address e)
  refine ⟨inv, known.plain.step (brings_closed env P) sends', fun o msg mem => ?_, traced⟩
  rcases Gossip.Network.mem_broadcasts_act mem with before | now
  · exact known.broadcasts o msg before
  · exact issues msg now

theorem deliver (known : Provenance env P s) {i : Nat} {c : Gossip.PacketChoice}
    {amb : Nat → Ambient} {pkt : Gossip.Packet} (sends : c.Sends fun msg => env.brings msg = [])
    (found : s.net.sent[i]? = some (address, pkt)) :
    Provenance env P ⟨s.net.step (.deliver i c), Function.update s.chains address
      (env.processAll address (s.chains address)
        (processings (s.net.nodes address) c amb pkt))⟩ := by
  have nothing : ∀ msg, env.brings msg = [] → Brings env P msg := by
    intro msg none t mem
    rw [none] at mem
    cases mem
  have sends' : Gossip.Network.Action.Sends (Brings env P) (.deliver i c) :=
    ⟨fun depth send mem => nothing _ (sends.1 depth send mem),
      fun i depth send mem => nothing _ (sends.2 i depth send mem)⟩
  have same : (s.net.step (.deliver i c)).broadcasts = s.net.broadcasts := by
    simp only [Gossip.Network.step, found]
  have sent := List.mem_of_getElem? found
  have inv := known.inv.step (.deliver i c)
  refine ⟨inv, known.plain.step (brings_closed env P) sends', ?_, known.chain ?_⟩
  · rw [same]
    exact known.broadcasts
  · refine (known.chains address).processAll env address fun p mem => ?_
    rcases mem_processings mem with ⟨r, carried, is⟩ | payload
    · obtain ⟨-, broadcast⟩ := known.inv.sent _ sent r carried
      rw [← is]
      exact known.broadcasts r.origin r.msg (List.mem_of_getElem? broadcast)
    · have plain := known.plain.sent _ sent
      rw [payload] at plain
      exact plain

theorem step (known : Provenance env P s) {a : Action} (honest : Honest env s a)
    (submitted : ∀ msg ∈ submissions a, Brings env P msg) :
    Provenance env P (step env s a) := by
  cases a with
  | gossip address e =>
      refine known.act ?_ ?_ known.chains
      · cases e with
        | sendPayload dest header msg => exact submitted msg List.mem_cons_self
        | _ => trivial
      · rintro msg rfl
        exact submitted msg List.mem_cons_self
  | deliver i c amb =>
      simp only [Replication.step, System.gossips, System.chainsAfter]
      cases arrival : s.arrival env i c amb with
      | none => exact known
      | some arriving =>
          obtain ⟨address, ps⟩ := arriving
          obtain ⟨pkt, found, -, rfl, -⟩ := arrival_eq_some arrival
          exact known.deliver honest found
  | startMining address amb =>
      exact ⟨known.inv, known.plain, known.broadcasts,
        known.chain ((known.chains address).startMining env.lib amb)⟩
  | finishMining address amb polls =>
      have chains : ∀ a, Traced P (s.chainsAfter env (.finishMining address amb polls) a) :=
        known.chain ((known.chains address).finishMining env.lib amb polls)
      simp only [Replication.step, System.gossips]
      rcases published_cases env (s.chains address) amb polls with
        ⟨-, none⟩ | ⟨order, block, data, applied, -, some⟩
      · rw [none]
        exact ⟨known.inv, known.plain, known.broadcasts, chains⟩
      · rw [some]
        have brings := honest order block _ applied some
        have mined := (known.chains address).offers.minedBlock (Node.minedBlock_of_applied applied)
        refine known.act trivial (fun msg same t mem => ?_) chains
        cases same
        exact mined t (brings mem)

end Provenance

/-- **Nothing out of thin air.**  In every run of any number of nodes and miners, whatever packets
are lost, delayed, reordered or repeated and whatever calls fail: each transaction in a mempool or
in a block that is being mined is one that a message submitted before brings, and so is, for each
record of each node, a transaction that has exactly this record as its output. -/
theorem reachable_traced {ackTimeout : GoString → Nat} {order : GoString → UTXOOrder}
    {bcStore : GoString → Store} {actions : List Action} (a : GoString)
    (honest : Run.Always (step env) (Honest env) (initial env ackTimeout order bcStore) actions) :
    let submitted := (actions.flatMap submissions).flatMap env.brings
    let n := (Run.run (step env) (initial env ackTimeout order bcStore) actions).chains a
    (∀ id t, n.mempool.get id = some t → t ∈ submitted) ∧
      (∀ block, n.mining = some block → ∀ t ∈ block.transactions, t ∈ submitted) ∧
      ∀ d u, n.utxoSet.get d = some u →
        ∃ t ∈ submitted, t.output = u ∧ t.output.domainName = d := by
  intro submitted n
  have brought : ∀ a ∈ actions, ∀ msg ∈ submissions a, Brings env (· ∈ submitted) msg :=
    fun a mem msg submits t brings =>
      List.mem_flatMap.mpr ⟨msg, List.mem_flatMap.mpr ⟨a, mem, submits⟩, brings⟩
  have known := (honest.and (Run.always_of_forall_mem brought)).run_invariant
    (initial_provenance env (· ∈ submitted) ackTimeout order bcStore)
    fun _ _ known conditions => known.step conditions.1 conditions.2
  obtain ⟨offers, records⟩ := known.chains a
  exact ⟨offers.mempool, offers.mining, records⟩

end Provenance

theorem honest_minesClaim :
    Run.Always (step followerEnv) (Honest followerEnv) follower (minesClaim ++ asksMiner) := by
  have silent : (Gossip.samplePacket none).Sends fun msg => followerEnv.brings msg = [] :=
    ⟨fun _ _ mem => absurd mem List.not_mem_nil, fun _ _ _ mem => absurd mem List.not_mem_nil⟩
  refine ⟨trivial, trivial, trivial, trivial, silent, trivial, ?_, trivial, silent, silent, trivial⟩
  intro order block msg applied published
  have issued :
      ∀ msg ∈ followerEnv.published ((afterMining 6).chains (str "m")) (sampleAmbient 0) 1,
        followerEnv.brings msg = [claim1] := by decide +kernel
  have mined : ((afterMining 6).chains (str "m")).minedBlock minersLib 1 = some block1 := by
    decide +kernel
  have mined' := Node.minedBlock_of_applied applied
  obtain rfl : block = block1 := Option.some.inj (mined'.symm.trans mined)
  rw [issued msg published]
  exact List.Subset.refl _

/-- The follower's record is from the claim that it has broadcast itself. -/
theorem traced_block1 :
    let submitted := ((minesClaim ++ asksMiner).flatMap submissions).flatMap followerEnv.brings
    let n := (Run.run (step followerEnv) follower (minesClaim ++ asksMiner)).chains (str "r")
    submitted = [claim1] ∧ n.utxoSet.get (str "example.com") = some claim1.output ∧
      (∀ id t, n.mempool.get id = some t → t ∈ submitted) ∧
        (∀ block, n.mining = some block → ∀ t ∈ block.transactions, t ∈ submitted) ∧
        ∀ d u, n.utxoSet.get d = some u →
          ∃ t ∈ submitted, t.output = u ∧ t.output.domainName = d :=
  ⟨by decide +kernel, by decide +kernel, reachable_traced (str "r") honest_minesClaim⟩

end Peerster.Replication
