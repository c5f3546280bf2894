import Peerster.Chain.Application

/-!
# Who may change a record

A record that a block finds in the UTXO set is spent by a transaction that names it and its owner.
`NameUpdate` does that, and so does the input side of `NameFirstUpdate`.  The output side of
`NameFirstUpdate`, and a `NameNew` in a block of the node's own, write a name without looking at
who holds it.  `RespectsOwners` is the condition on a block under which nobody loses a record, and
`noTheft_of_respects` is what follows for whole runs.
-/

namespace Peerster

/-- `t` writes the name `d` without consuming the record of `d`: it registers `d`, or it reveals `d`
and consumes another name. -/
def Transaction.Claims (t : Transaction) (d : GoString) : Prop :=
  t.output.domainName = d ∧
    (t.type = .nameNew ∨ t.type = .nameFirstUpdate ∧ t.input.domainName ≠ d)

instance (t : Transaction) (d : GoString) : Decidable (t.Claims d) :=
  inferInstanceAs (Decidable (_ ∧ (_ ∨ _ ∧ _)))

/-- No transaction of the block claims a name that is taken, unless it writes the very record that
is there or the block also spends that record. -/
def RespectsOwners (s : UTXOSet) (ts : List Transaction) : Prop :=
  ∀ t ∈ ts, ∀ d u, t.Claims d → s.get d = some u → t.output = u ∨ ∃ t' ∈ ts, t'.Spends d u.owner

theorem respectsOwners_iff {s : UTXOSet} {ts : List Transaction} :
    RespectsOwners s ts ↔
      ∀ t ∈ ts, t.Claims t.output.domainName → ∀ u ∈ s.get t.output.domainName,
        t.output = u ∨ ∃ t' ∈ ts, t'.Spends t.output.domainName u.owner := by
  constructor
  · intro respects t mem claims u present
    exact respects t mem t.output.domainName u claims present
  · intro respects t mem d u claims present
    obtain rfl : t.output.domainName = d := claims.1
    exact respects t mem claims u present

instance (s : UTXOSet) (ts : List Transaction) : Decidable (RespectsOwners s ts) :=
  decidable_of_iff _ respectsOwners_iff.symm

/-- A `NameUpdate` keeps the name, which `validateTransaction` checks. -/
def Transaction.KeepsName (t : Transaction) : Prop :=
  t.type = .nameUpdate → t.output.domainName = t.input.domainName

theorem Transaction.Valid.keepsName {now : Time} {s : UTXOSet} {t : Transaction}
    (valid : t.Valid now s) : t.KeepsName := by
  intro type
  obtain ⟨-, -, check⟩ := valid
  simp only [type] at check
  exact check.1

section Block

variable {order : UTXOOrder} {s : UTXOSet}

/-- One transaction that neither spends a record nor claims its name for another leaves it. -/
theorem applyTransaction_keeps_record {s' : UTXOSet} {t : Transaction} {d : GoString} {u : UTXO}
    (keyed : Keyed s) (applied : applyTransaction order s t = .ok s') (keepsName : t.KeepsName)
    (present : s.get d = some u) (unspent : ¬ t.Spends d u.owner)
    (unclaimed : t.Claims d → t.output = u) : s'.get d = some u := by
  -- An applied transaction with input `d` found the record of `d`, so it spends it.
  have elsewhere : t.consumes = true → t.input.domainName ≠ d := by
    intro consumes name
    have there : ¬ Missing s t := fun missing => by
      obtain ⟨err, refused⟩ := applyTransaction_error_iff.mpr missing
      rw [applied] at refused
      cases refused
    obtain ⟨u', present', owner⟩ := (holds_iff_of_keyed keyed).mp
      (not_not.mp fun absent => there ⟨consumes, absent⟩)
    rw [name, present] at present'
    cases present'
    exact unspent ⟨consumes, name, owner.symm⟩
  rw [applyTransaction_get applied]
  cases touched : t.effect d with
  | none => exact present
  | some entry =>
      cases entry with
      | none =>
          obtain ⟨consumes, name, -⟩ := Transaction.effect_eq_some_none touched
          exact (elsewhere consumes name).elim
      | some u' =>
          obtain ⟨rfl, name⟩ := Transaction.effect_eq_some_some touched
          have claims : t.Claims d := by
            refine ⟨name, ?_⟩
            cases type : t.type with
            | nameNew => exact .inl rfl
            | nameFirstUpdate =>
                exact .inr ⟨rfl, elsewhere (by simp [Transaction.consumes, type])⟩
            | nameUpdate =>
                have same : t.input.domainName = d := (keepsName type).symm.trans name
                exact (elsewhere (by simp [Transaction.consumes, type]) same).elim
            | other kind => simp [Transaction.effect, type] at touched
          simp only [Option.getD_some, unclaimed claims]

/-- So do all transactions of a block. -/
theorem applyTransactions_keeps_record {ts : List Transaction} {d : GoString} {u : UTXO}
    (keyed : Keyed s) (keepsName : ∀ t ∈ ts, t.KeepsName) (present : s.get d = some u)
    (unspent : ∀ t ∈ ts, ¬ t.Spends d u.owner)
    (unclaimed : ∀ t ∈ ts, t.Claims d → t.output = u) :
    (applyTransactions order s ts).1.get d = some u := by
  induction ts generalizing s with
  | nil => exact present
  | cons t ts ih =>
      unfold applyTransactions
      cases applied : applyTransaction order s t with
      | error err => exact present
      | ok s' =>
          have kept : s'.get d = some u :=
            applyTransaction_keeps_record keyed applied (keepsName t List.mem_cons_self) present
              (unspent t List.mem_cons_self) (unclaimed t List.mem_cons_self)
          exact ih (applyTransaction_keyed keyed applied)
            (fun t' mem => keepsName t' (List.mem_cons_of_mem t mem)) kept
            (fun t' mem => unspent t' (List.mem_cons_of_mem t mem))
            (fun t' mem => unclaimed t' (List.mem_cons_of_mem t mem))

/-- A block that respects owners changes a record only if it spends it. -/
theorem applyBlock_keeps_or_spends {block : Block} {d : GoString} {u : UTXO} (keyed : Keyed s)
    (keepsName : ∀ t ∈ block.transactions, t.KeepsName)
    (respects : RespectsOwners s block.transactions) (present : s.get d = some u) :
    (Node.applyBlock order s block).1.get d = some u ∨
      ∃ t ∈ block.transactions, t.Spends d u.owner := by
  unfold Node.applyBlock
  split
  · exact .inl present
  · by_cases spent : ∃ t ∈ block.transactions, t.Spends d u.owner
    · exact .inr spent
    · have unspent : ∀ t ∈ block.transactions, ¬ t.Spends d u.owner :=
        fun t mem spends => spent ⟨t, mem, spends⟩
      refine .inl (applyTransactions_keeps_record keyed keepsName present unspent ?_)
      intro t mem claims
      rcases respects t mem d u claims present with same | spends
      · exact same
      · exact (spent spends).elim

end Block

namespace Node

/-! ## What a node holds was validated -/

/-- Every transaction in the mempool, and in the block being mined, has the property `P`. -/
structure Offers (P : Transaction → Prop) (n : Node) : Prop where
  mempool : ∀ id t, n.mempool.get id = some t → P t
  mining : ∀ b, n.mining = some b → ∀ t ∈ b.transactions, P t

section Offers

variable {lib : Stdlib} {P : Transaction → Prop} {n : Node}

theorem Offers.of_same {n' : Node} (offers : n.Offers P)
    (mempool : ∀ id t, n'.mempool.get id = some t → n.mempool.get id = some t)
    (mining : n'.mining = none ∨ n'.mining = n.mining) : n'.Offers P := by
  refine ⟨fun id t held => offers.mempool id t (mempool id t held), fun b candidate => ?_⟩
  rcases mining with idle | same
  · rw [idle] at candidate
    cases candidate
  · exact offers.mining b (same ▸ candidate)

/-- Transactions enter a node only through `validateTransaction`. -/
theorem Offers.transition {n' : Node} {e : Event} (offers : n.Offers P)
    (validated : ∀ amb tx, validateTransaction lib amb n.utxoSet tx = .ok () → P tx)
    (transition : n.Transition lib e n') : n'.Offers P := by
  cases transition with
  | ignores _ _ _ => exact offers
  | accepts _ valid =>
      refine ⟨fun id t held => ?_, offers.mining⟩
      simp only [FinMap.get_add] at held
      split at held
      · cases held
        exact validated _ _ valid
      · exact offers.mempool id t held
  | starts _ taken =>
      refine ⟨offers.mempool, fun b candidate t mem => ?_⟩
      cases candidate
      obtain ⟨id, held⟩ := exists_get_of_mem_getTxsFromMempool (taken.symm ▸ mem)
      exact offers.mempool id t held
  | stops _ => exact offers.of_same (fun _ _ held => held) (.inl rfl)
  | applies _ _ _ mempool mining =>
      refine offers.of_same (fun id t held => ?_) (mining.imp_right And.left)
      rw [mempool] at held
      split at held
      · exact get_of_get_removeTxsFromMempool held
      · exact held

theorem Offers.step (offers : n.Offers P)
    (validated : ∀ amb tx, validateTransaction lib amb n.utxoSet tx = .ok () → P tx) (e : Event) :
    (n.step lib e).Offers P :=
  offers.transition validated (step_transition lib n e)

theorem Offers.minedBlock {polls : Nat} {block : Block} (offers : n.Offers P)
    (mined : n.minedBlock lib polls = some block) : ∀ t ∈ block.transactions, P t := by
  obtain ⟨candidate, challenge, inProgress, rfl, -, -⟩ := minedBlock_eq_some mined
  exact offers.mining candidate inProgress

/-- Every transaction of an applied block was validated at some point. -/
theorem Offers.applied {order : UTXOOrder} {block : Block} (offers : n.Offers P)
    (validated : ∀ amb tx, validateTransaction lib amb n.utxoSet tx = .ok () → P tx) {e : Event}
    (applies : n.applied lib e = some (order, block)) : ∀ t ∈ block.transactions, P t := by
  cases e with
  | transactionMessage amb tx => cases applies
  | blockMessage amb block' =>
      obtain ⟨rfl, accepted⟩ := validateBlock_of_applied applies
      exact fun t mem => validated amb t ((validateBlock_ok_iff.mp accepted).2 t mem)
  | startMining amb => cases applies
  | finishMining amb polls => exact offers.minedBlock (minedBlock_of_applied applies)

end Offers

theorem start_offers (lib : Stdlib) (order : UTXOOrder) (bcStore : Store)
    (P : Transaction → Prop) : (start lib order (newPeer bcStore)).Offers P := by
  refine ⟨fun id t held => ?_, fun b candidate => ?_⟩
  · rw [start_mempool] at held
    cases held
  · rw [start_mining] at candidate
    cases candidate

/-! ## Runs -/

/-- If the event applies a block, every record the block finds is still there afterwards, or the
block spends it. -/
def NoTheft (lib : Stdlib) (n : Node) (e : Event) : Prop :=
  ∀ order block, n.applied lib e = some (order, block) →
    ∀ d u, n.utxoSet.get d = some u →
      (n.step lib e).utxoSet.get d = some u ∨ ∃ t ∈ block.transactions, t.Spends d u.owner

/-- If the event applies a block, the block respects the owners of the records it finds. -/
def Respects (lib : Stdlib) (n : Node) (e : Event) : Prop :=
  ∀ order block, n.applied lib e = some (order, block) →
    RespectsOwners n.utxoSet block.transactions

/-- What the argument needs of a state: records under their names, and no update on its way that
changes a name. -/
structure Sound (n : Node) : Prop where
  keyed : Keyed n.utxoSet
  offers : n.Offers Transaction.KeepsName

theorem keepsName_of_validated {lib : Stdlib} {s : UTXOSet} (keyed : Keyed s) (amb : Ambient)
    (tx : Transaction) (valid : validateTransaction lib amb s tx = .ok ()) : tx.KeepsName :=
  ((validateTransaction_ok_iff keyed).mp valid).keepsName

theorem Sound.step {lib : Stdlib} {n : Node} (sound : n.Sound) (e : Event) :
    (n.step lib e).Sound :=
  ⟨step_keyed sound.keyed e, sound.offers.step (keepsName_of_validated sound.keyed) e⟩

theorem start_sound (lib : Stdlib) (order : UTXOOrder) (bcStore : Store) :
    (start lib order (newPeer bcStore)).Sound := by
  refine ⟨?_, start_offers lib order bcStore _⟩
  rw [start_utxoSet]
  intro d u present
  cases present

theorem noTheft_of_sound {lib : Stdlib} {n : Node} {e : Event} (sound : n.Sound)
    (respects : Respects lib n e) : NoTheft lib n e := by
  intro order block applies d u present
  have keepsName := sound.offers.applied (keepsName_of_validated sound.keyed) applies
  rw [step_utxoSet, applies]
  exact applyBlock_keeps_or_spends sound.keyed keepsName (respects order block applies) present

/-- **No theft.**  In a run whose blocks all respect the owners of the records they find, a record
is overwritten or removed only by a transaction that spends it. -/
theorem noTheft_of_respects (lib : Stdlib) (order : UTXOOrder) (bcStore : Store) (es : List Event)
    (respects : Run.Always (step lib) (Respects lib) (start lib order (newPeer bcStore)) es) :
    Run.Always (step lib) (NoTheft lib) (start lib order (newPeer bcStore)) es :=
  respects.imp (start_sound lib order bcStore) (fun _ e sound _ => sound.step e)
    (fun _ _ sound respects => noTheft_of_sound sound respects)

/-- `owner1` registers `example.com`, `owner2` registers another name, and reveals it as
`example.com`. -/
def squatting : List Block :=
  [registration,
    sampleBlock 2 [sampleTx .nameNew "tx2" .zero (sampleUTXO "commitment" "owner2" 10)],
    sampleBlock 3 [sampleTx .nameFirstUpdate "tx3" (sampleUTXO "commitment" "owner2" 10)
      (sampleUTXO "example.com" "owner2" 10)]]

/-- `owner1` updates `example.com`, and `owner2` reveals the other name under one of its own. -/
def fairUse : List Block :=
  [registration,
    sampleBlock 2
      [sampleTx .nameNew "tx2" .zero (sampleUTXO "commitment" "owner2" 10),
        sampleTx .nameUpdate "tx3" (sampleUTXO "example.com" "owner1" 10)
          (sampleUTXO "example.com" "owner1" 20)],
    sampleBlock 3 [sampleTx .nameFirstUpdate "tx4" (sampleUTXO "commitment" "owner2" 10)
      (sampleUTXO "example.org" "owner2" 10)]]

theorem respects_blockMessage (lib : Stdlib) {amb : Ambient} {n : Node} {block : Block}
    (respects : RespectsOwners n.utxoSet block.transactions) :
    Respects lib n (.blockMessage amb block) := by
  intro order block' applies
  rw [(validateBlock_of_applied applies).1]
  exact respects

/-- The run of fair blocks meets the condition, and nobody loses a record. -/
theorem noTheft_fairUse :
    Run.Always (step (sampleLib fairUse)) (Respects (sampleLib fairUse))
        (start (sampleLib fairUse) .sorted (newPeer sampleStore)) (deliver fairUse) ∧
      Run.Always (step (sampleLib fairUse)) (NoTheft (sampleLib fairUse))
        (start (sampleLib fairUse) .sorted (newPeer sampleStore)) (deliver fairUse) := by
  have respects : Run.Always (step (sampleLib fairUse)) (Respects (sampleLib fairUse))
      (start (sampleLib fairUse) .sorted (newPeer sampleStore)) (deliver fairUse) :=
    ⟨respects_blockMessage _ (by decide +kernel), respects_blockMessage _ (by decide +kernel),
      respects_blockMessage _ (by decide +kernel), trivial⟩
  exact ⟨respects, noTheft_of_respects _ _ _ _ respects⟩

/-- The reveal is accepted, and `owner1` has lost the name. -/
theorem squatting_steals :
    ¬ Run.Always (step (sampleLib squatting)) (NoTheft (sampleLib squatting))
      (start (sampleLib squatting) .sorted (newPeer sampleStore)) (deliver squatting) := by
  intro noTheft
  have third := noTheft.2.2.1 .sorted (squatting[2]) (if_pos (by decide +kernel))
    (str "example.com") (sampleUTXO "example.com" "owner1" 10) (by decide +kernel)
  revert third
  decide +kernel

end Node

end Peerster
