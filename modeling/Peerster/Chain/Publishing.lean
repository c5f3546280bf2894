import Peerster.Chain.Mempool
import Peerster.Chain.Ownership

/-!
# What a miner publishes

`attemptToMine` broadcasts and applies its block without calling `validateBlock`, which
`handleBlockMessage` does.  Its transactions were valid when they entered the mempool, and nothing
takes them out of it, or stops the attempt, when a block makes them invalid.  Blocks are valid when
they are published as long as every applied block leaves the waiting transactions what they need
(`publishesValid_of_endures`).
-/

namespace Peerster

open LastTouch

namespace Transaction

/-- The name whose entry `validateTransaction` looks at. -/
def subject (t : Transaction) : GoString :=
  if t.consumes then t.input.domainName else t.output.domainName

/-- The entry of its name is what the transaction needs: none for a registration, and for an update
a record of the owner that does not expire later than the new one. -/
def Suits (t : Transaction) (entry : Option UTXO) : Prop :=
  match t.type with
  | .nameNew => entry = none
  | .nameFirstUpdate | .nameUpdate =>
      ∃ u, entry = some u ∧ u.owner = t.input.owner ∧ u.expiration ≤ t.output.expiration
  | .other _ => False

/-- Apart from the clock, validity is a condition on the entry of one name. -/
theorem Valid.of_suits {now now' : Time} {s s' : UTXOSet} {t : Transaction} (valid : t.Valid now s)
    (inTime : now' ≤ t.output.expiration)
    (suits : t.Suits (s.get t.subject) → t.Suits (s'.get t.subject)) : t.Valid now' s' := by
  obtain ⟨named, -, check⟩ := valid
  refine ⟨named, inTime, ?_⟩
  unfold Suits subject Transaction.consumes at suits
  cases type : t.type with
  | nameNew =>
      simp only [type] at check suits ⊢
      exact ⟨check.1, suits check.2⟩
  | nameFirstUpdate =>
      simp only [type] at check suits ⊢
      exact ⟨check.1, suits check.2⟩
  | nameUpdate =>
      simp only [type] at check suits ⊢
      exact ⟨check.1, suits check.2⟩
  | other name =>
      simp only [type] at check

end Transaction

namespace Node

/-- The block an event publishes is valid where and when it is published. -/
def PublishesValid (lib : Stdlib) (n : Node) (e : Event) : Prop :=
  ∀ amb polls block, e = .finishMining amb polls → n.mines = true →
    n.minedBlock lib polls = some block → validateBlock lib amb n.utxoSet block = .ok ()

/-- The transaction waits, in the mempool or in the attempt in progress, and still does after the
event: the event confirms no transaction of its ID, and does not end the attempt. -/
def Stays (lib : Stdlib) (n : Node) (e : Event) (t : Transaction) : Prop :=
  (∃ id, n.mempool.get id = some t ∧
      ∀ block, n.confirmed lib e = some block → id ∉ block.transactions.map Transaction.id) ∨
    ∃ candidate, n.mining = some candidate ∧ t ∈ candidate.transactions ∧
      ∀ amb polls, e = .finishMining amb polls → n.mines ≠ true

/-- When the event executes transactions, the last one that touches the name of a transaction that
stays leaves it the entry that transaction needs. -/
def Endures (lib : Stdlib) (n : Node) (e : Event) : Prop :=
  ∀ t, n.Stays lib e t → ∀ entry,
    lastTouch Transaction.effect (n.executedTxs lib e) t.subject = some entry → t.Suits entry

/-- A block is found before one of its outputs expires. -/
def InTime (n : Node) (e : Event) : Prop :=
  ∀ amb polls candidate, e = .finishMining amb polls → n.mining = some candidate →
    ∀ t ∈ candidate.transactions, amb.now ≤ t.output.expiration

/-- Every waiting transaction is valid but for the clock, and a candidate has transactions. -/
structure Ready (n : Node) : Prop where
  keyed : Keyed n.utxoSet
  offers : n.Offers fun t => t.Valid t.output.expiration n.utxoSet
  filled : ∀ candidate, n.mining = some candidate → candidate.transactions ≠ []

section Ready

variable {lib : Stdlib} {n : Node} {e : Event}

/-- What waits after an event has stayed, was taken from the mempool, or has just been accepted. -/
theorem stays_of_mempool {id : GoString} {t : Transaction}
    (waits : (n.step lib e).mempool.get id = some t) :
    n.Stays lib e t ∨ n.applied lib e = none := by
  rcases (step_transition lib n e).mempool_eq with
    ⟨same, -, none⟩ | ⟨tx, accepts, -, -⟩ | ⟨order, block, -, confirms, removed⟩
  · refine .inl (.inl ⟨id, same ▸ waits, fun block confirms => ?_⟩)
    rw [none] at confirms
    cases confirms
  · refine .inr ?_
    cases e with
    | transactionMessage amb tx => rfl
    | startMining amb => rfl
    | blockMessage amb block => cases accepts
    | finishMining amb polls => cases accepts
  · rw [removed, get_removeTxsFromMempool] at waits
    split at waits
    · cases waits
    · next other =>
      refine .inl (.inl ⟨id, waits, fun block' confirms' => ?_⟩)
      cases confirms.symm.trans confirms'
      simpa using other

theorem stays_of_mining {candidate : Block} {t : Transaction}
    (inProgress : (n.step lib e).mining = some candidate) (mem : t ∈ candidate.transactions) :
    n.Stays lib e t ∨ n.applied lib e = none := by
  rcases step_mining inProgress with ⟨before, stuck⟩ | ⟨amb, rfl, -, -⟩
  · exact .inl (.inr ⟨candidate, before, mem, stuck⟩)
  · exact .inr rfl

/-- A transaction that waits after the event and was valid before it is still valid. -/
theorem Endures.valid (endures : n.Endures lib e) {t : Transaction}
    (stays : n.Stays lib e t ∨ n.applied lib e = none)
    (valid : t.Valid t.output.expiration n.utxoSet) :
    t.Valid t.output.expiration (n.step lib e).utxoSet := by
  refine valid.of_suits (le_refl _) fun suits => ?_
  rw [step_get]
  rcases stays with stays | idle
  · cases touched : lastTouch Transaction.effect (n.executedTxs lib e) t.subject with
    | none => exact suits
    | some entry => exact endures t stays entry touched
  · simp only [executedTxs, idle]
    exact suits

theorem Ready.step (ready : n.Ready) (endures : n.Endures lib e) : (n.step lib e).Ready := by
  have offers : (n.step lib e).Offers fun t => t.Valid t.output.expiration n.utxoSet := by
    refine ready.offers.step (fun amb tx valid => ?_) e
    have now := (validateTransaction_ok_iff ready.keyed).mp valid
    exact now.of_suits (le_refl _) id
  refine ⟨step_keyed ready.keyed e,
    ⟨fun id t waits => ?_, fun candidate inProgress t mem => ?_⟩, ?_⟩
  · exact endures.valid (stays_of_mempool waits) (offers.mempool id t waits)
  · exact endures.valid (stays_of_mining inProgress mem) (offers.mining candidate inProgress t mem)
  · intro candidate inProgress
    rcases step_mining inProgress with ⟨before, -⟩ | ⟨amb, -, filled, -⟩
    · exact ready.filled candidate before
    · exact filled

theorem Ready.publishesValid (ready : n.Ready) (inTime : n.InTime e) : n.PublishesValid lib e := by
  intro amb polls block same up mined
  obtain ⟨candidate, challenge, inProgress, rfl, -, -⟩ := minedBlock_eq_some mined
  refine validateBlock_ok_iff.mpr ⟨ready.filled candidate inProgress, fun t mem => ?_⟩
  refine (validateTransaction_ok_iff ready.keyed).mpr ?_
  exact (ready.offers.mining candidate inProgress t mem).of_suits
    (inTime amb polls candidate same inProgress t mem) id

end Ready

theorem start_ready (lib : Stdlib) (order : UTXOOrder) (bcStore : Store) :
    (start lib order (newPeer bcStore)).Ready := by
  refine ⟨?_, start_offers lib order bcStore _, fun candidate inProgress => ?_⟩
  · rw [start_utxoSet]
    intro d u present
    cases present
  · rw [start_mining] at inProgress
    cases inProgress

/-- **Miners publish valid blocks** in every run in which applied blocks leave the transactions that
stay what they need, and blocks are found before their outputs expire. -/
theorem publishesValid_of_endures (lib : Stdlib) (order : UTXOOrder) (bcStore : Store)
    (es : List Event)
    (endures : Run.Always (step lib) (Endures lib) (start lib order (newPeer bcStore)) es)
    (inTime : Run.Always (step lib) InTime (start lib order (newPeer bcStore)) es) :
    Run.Always (step lib) (PublishesValid lib) (start lib order (newPeer bcStore)) es := by
  refine (endures.and inTime).imp (I := Ready) (start_ready lib order bcStore) ?_ ?_
  · intro n e ready conditions
    exact ready.step conditions.1
  · intro n e ready conditions
    exact ready.publishesValid conditions.2

theorem endures_of_idle {lib : Stdlib} {n : Node} {e : Event} (idle : n.applied lib e = none) :
    n.Endures lib e := by
  intro t _ entry touched
  simp only [executedTxs, idle, lastTouch_nil] at touched
  cases touched

/-- A registration is mined while nothing else happens. -/
theorem publishesValid_mineClaim :
    Run.Always (step minersLib) (PublishesValid minersLib)
      (start minersLib .sorted (newPeer sampleStore)) mineClaim := by
  let n := Run.run (step minersLib) (start minersLib .sorted (newPeer sampleStore))
    (mineClaim.take 2)
  refine publishesValid_of_endures minersLib .sorted sampleStore mineClaim
    ⟨endures_of_idle rfl, endures_of_idle rfl, fun t stays => ?_, trivial⟩
    ⟨nofun, nofun, fun amb polls candidate same inProgress => ?_, trivial⟩
  · rcases stays with ⟨id, waits, other⟩ | ⟨_, _, _, stuck⟩
    · have confirms : n.confirmed minersLib (.finishMining (sampleAmbient 0) 1) = some block1 := by
        decide +kernel
      have ids : ∀ id ∈ n.mempool.keys, id ∈ block1.transactions.map Transaction.id := by
        decide +kernel
      exact (other block1 confirms (ids id (FinMap.mem_keys_of_get waits))).elim
    · exact (stuck (sampleAmbient 0) 1 rfl (by decide +kernel)).elim
  · cases same
    have unexpired : n.mining.all
        (fun block => block.transactions.all fun t => decide (0 ≤ t.output.expiration)) = true := by
      decide +kernel
    rw [show n.mining = some candidate from inProgress] at unexpired
    have inTime : ∀ t ∈ candidate.transactions, 0 ≤ t.output.expiration := by simpa using unexpired
    exact inTime

/-- The second claim's block arrives while the first claim is mined. -/
theorem overtaken_publishes_invalid :
    ¬ Run.Always (step minersLib) (PublishesValid minersLib)
      (start minersLib .sorted (newPeer sampleStore))
      [.transactionMessage (sampleAmbient 0) claim1, .startMining (sampleAmbient 0),
        .blockMessage (sampleAmbient 0) block2, .finishMining (sampleAmbient 0) 1] := by
  intro always
  obtain ⟨-, -, -, last, -⟩ := always
  have valid := last (sampleAmbient 0) 1 block1 rfl (by decide +kernel) (by decide +kernel)
  revert valid
  decide +kernel

end Node

end Peerster
