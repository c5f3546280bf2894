import Peerster.Chain.Node

/-!
# When a block applies

`addBlockToBlockchain` applies transactions one after the other and returns in the middle of the
loop when one of them finds its input gone.  `Stuck` says, from the block and the set before it
alone, which transaction that is.  From it follow exactly when an error leaves the node as it was,
and exactly when a block that `validateBlock` accepts applies as validated.
-/

namespace Peerster

open LastTouch

/-- The entry of a name once the transactions `ts` have been applied to `s`. -/
def entryAfter (s : UTXOSet) (ts : List Transaction) (d : GoString) : Option UTXO :=
  (lastTouch Transaction.effect ts d).getD (s.get d)

/-- After the transactions `before`, the input of `t` is not there. -/
def Stuck (s : UTXOSet) (before : List Transaction) (t : Transaction) : Prop :=
  t.consumes = true ∧ ∀ d u, entryAfter s before d = some u →
    ¬ (u.domainName = t.input.domainName ∧ u.owner = t.input.owner)

/-- `t` is the first transaction of a block that finds its input gone. -/
def StopsAt (s : UTXOSet) (ts before : List Transaction) (t : Transaction) : Prop :=
  (∃ after, ts = before ++ t :: after) ∧ Stuck s before t ∧
    ∀ earlier t' later, before = earlier ++ t' :: later → ¬ Stuck s earlier t'

section Loop

variable {order : UTXOOrder} {s : UTXOSet}

theorem applyTransactions_nil_error (ts : List Transaction) (t : Transaction)
    (after : List Transaction) (ok : (applyTransactions order s ts).2 = none)
    (missing : Missing (applyTransactions order s ts).1 t) :
    ∃ err, applyTransactions order s (ts ++ t :: after) =
      ((applyTransactions order s ts).1, some err) := by
  obtain ⟨err, refused⟩ := applyTransaction_error_iff.mpr missing
  refine ⟨err, ?_⟩
  rw [applyTransactions_append ok, applyTransactions, refused]

/-- An error names the transaction the loop stopped at, and the set is what the ones before it
left. -/
theorem applyTransactions_error {ts : List Transaction} {err : GoString}
    (failed : (applyTransactions order s ts).2 = some err) :
    ∃ before t after, ts = before ++ t :: after ∧
      applyTransactions order s before = ((applyTransactions order s ts).1, none) ∧
      Missing (applyTransactions order s ts).1 t := by
  induction ts generalizing s with
  | nil => cases failed
  | cons t ts ih =>
      unfold applyTransactions at failed ⊢
      cases applied : applyTransaction order s t with
      | error err' =>
          exact ⟨[], t, ts, rfl, rfl, applyTransaction_error_iff.mp ⟨err', applied⟩⟩
      | ok s' =>
          rw [applied] at failed
          obtain ⟨before, t', after, split, reached, missing⟩ := ih failed
          refine ⟨t :: before, t', after, by rw [split]; rfl, ?_, missing⟩
          simp only [applied, reached]

theorem stuck_iff_missing {before : List Transaction} {t : Transaction}
    (ok : (applyTransactions order s before).2 = none) :
    Stuck s before t ↔ Missing (applyTransactions order s before).1 t := by
  simp only [Stuck, Missing, Holds, entryAfter, ← applyTransactions_get ok, not_exists, not_and]

theorem applyTransactions_ok_of_prefix {ts ts' : List Transaction}
    (ok : (applyTransactions order s (ts ++ ts')).2 = none) :
    (applyTransactions order s ts).2 = none := by
  cases failed : (applyTransactions order s ts).2 with
  | none => rfl
  | some err =>
      obtain ⟨before, t, after, split, reached, missing⟩ := applyTransactions_error failed
      have stop := applyTransactions_nil_error before t (after ++ ts') (by rw [reached])
        (by rw [reached]; exact missing)
      obtain ⟨err', stop⟩ := stop
      rw [split, List.append_assoc, List.cons_append, stop] at ok
      cases ok

/-- All transactions apply exactly when none of them is stuck. -/
theorem applyTransactions_ok_iff {ts : List Transaction} :
    (applyTransactions order s ts).2 = none ↔
      ∀ before t after, ts = before ++ t :: after → ¬ Stuck s before t := by
  constructor
  · rintro ok before t after rfl stuck
    have okBefore := applyTransactions_ok_of_prefix ok
    obtain ⟨err, stop⟩ := applyTransactions_nil_error before t after okBefore
      ((stuck_iff_missing okBefore).mp stuck)
    rw [stop] at ok
    cases ok
  · intro free
    cases failed : (applyTransactions order s ts).2 with
    | none => rfl
    | some err =>
        obtain ⟨before, t, after, split, reached, missing⟩ := applyTransactions_error failed
        have okBefore : (applyTransactions order s before).2 = none := by rw [reached]
        rw [show (applyTransactions order s ts).1 = (applyTransactions order s before).1 by
          rw [reached]] at missing
        exact (free before t after split ((stuck_iff_missing okBefore).mpr missing)).elim

/-- The loop returns an error exactly when it stops at some transaction, and then it leaves what
the transactions before it made of the set. -/
theorem applyTransactions_stopsAt (order : UTXOOrder) {ts before : List Transaction}
    {t : Transaction} (stops : StopsAt s ts before t) :
    (∃ err, (applyTransactions order s ts).2 = some err) ∧
      ∀ d, (applyTransactions order s ts).1.get d = entryAfter s before d := by
  obtain ⟨⟨after, rfl⟩, stuck, first⟩ := stops
  have ok : (applyTransactions order s before).2 = none := applyTransactions_ok_iff.mpr first
  obtain ⟨err, stop⟩ := applyTransactions_nil_error before t after ok
    ((stuck_iff_missing ok).mp stuck)
  rw [stop]
  exact ⟨⟨err, rfl⟩, fun d => applyTransactions_get ok d⟩

theorem exists_stopsAt_of_error {ts : List Transaction} {err : GoString}
    (failed : (applyTransactions order s ts).2 = some err) :
    ∃ before t, StopsAt s ts before t := by
  obtain ⟨before, t, after, split, reached, missing⟩ := applyTransactions_error failed
  have ok : (applyTransactions order s before).2 = none := by rw [reached]
  rw [show (applyTransactions order s ts).1 = (applyTransactions order s before).1 by
    rw [reached]] at missing
  exact ⟨before, t, ⟨after, split⟩, (stuck_iff_missing ok).mpr missing,
    applyTransactions_ok_iff.mp ok⟩

end Loop

/-! ## Atomicity -/

namespace Node

/-- An error of `addBlockToBlockchain` leaves the UTXO set, the blockchain store and the height as
they were. -/
def AtomicOnError (lib : Stdlib) (order : UTXOOrder) (n : Node) (block : Block) : Prop :=
  ∀ n' err, addBlockToBlockchain lib order n block = (n', .error err) →
    n'.utxoSet = n.utxoSet ∧ n'.bcStore = n.bcStore ∧ n'.currentHeight = n.currentHeight

theorem addBlockToBlockchain_error_iff {lib : Stdlib} {order : UTXOOrder} {n n' : Node}
    {block : Block} {err : GoString} :
    addBlockToBlockchain lib order n block = (n', .error err) ↔
      applyBlock order n.utxoSet block = (n'.utxoSet, some err) ∧
        n' = { n with utxoSet := n'.utxoSet } := by
  unfold addBlockToBlockchain
  cases result : applyBlock order n.utxoSet block with
  | mk utxoSet failed =>
      cases failed with
      | some err' =>
          simp only [Prod.mk.injEq, Return.error.injEq, Option.some.injEq]
          constructor
          · intro returned
            rcases returned with ⟨rfl, rfl⟩
            exact ⟨⟨rfl, rfl⟩, rfl⟩
          · intro applied
            rcases applied with ⟨⟨rfl, rfl⟩, same⟩
            exact ⟨same.symm, rfl⟩
      | none =>
          simp only [Prod.mk.injEq, reduceCtorEq, and_false, false_and, iff_false]
          split <;> simp

/-- **Block application is atomic on error** exactly when the transactions before the one the block
stops at, if it stops at one, put back every name they touch. -/
theorem atomicOnError_iff (lib : Stdlib) (order : UTXOOrder) (n : Node) (block : Block) :
    AtomicOnError lib order n block ↔
      (block.nonce ≠ 0 → ∀ before t, StopsAt n.utxoSet block.transactions before t →
        ∀ d, entryAfter n.utxoSet before d = n.utxoSet.get d) := by
  constructor
  · intro atomic notGenesis before t stops d
    obtain ⟨⟨err, failed⟩, left⟩ := applyTransactions_stopsAt order stops
    have result : applyBlock order n.utxoSet block =
        ((applyTransactions order n.utxoSet block.transactions).1, some err) := by
      rw [applyBlock, if_neg notGenesis, ← failed]
    have same : (applyTransactions order n.utxoSet block.transactions).1 = n.utxoSet :=
      (atomic { n with utxoSet := _ } err (addBlockToBlockchain_error_iff.mpr ⟨result, rfl⟩)).1
    rw [← left d, same]
  · intro restores n' err failed
    obtain ⟨result, same⟩ := addBlockToBlockchain_error_iff.mp failed
    have notGenesis : block.nonce ≠ 0 := by
      intro genesis
      rw [applyBlock, if_pos genesis] at result
      exact Option.some_ne_none err (congrArg Prod.snd result).symm
    rw [applyBlock, if_neg notGenesis] at result
    have stopped : (applyTransactions order n.utxoSet block.transactions).2 = some err := by
      rw [result]
    obtain ⟨before, t, stops⟩ := exists_stopsAt_of_error stopped
    have left := (applyTransactions_stopsAt order stops).2
    have restored : n'.utxoSet = n.utxoSet := by
      refine FinMap.ext fun d => ?_
      rw [← restores notGenesis before t stops d, ← left d, result]
    rw [same]
    exact ⟨restored, rfl, rfl⟩

/-- A registration followed by an update of an unknown name. -/
def halfValid : Block :=
  sampleBlock 1
    [sampleTx .nameNew "tx1" .zero (sampleUTXO "example.com" "owner1" 10),
      sampleTx .nameUpdate "tx2" (sampleUTXO "other.com" "owner1" 10)
        (sampleUTXO "other.com" "owner1" 10)]

/-- The block is refused, and its registration stays. -/
theorem refused_block_leaves_registration :
    ¬ AtomicOnError (sampleLib [halfValid]) .sorted (newPeer sampleStore) halfValid := by
  intro atomic
  have failed : (addBlockToBlockchain (sampleLib [halfValid]) .sorted (newPeer sampleStore)
      halfValid).2 = .error (str "Input UTXO not found for NameUpdate") := by decide +kernel
  have same := congrArg (fun s => s.get (str "example.com")) (atomic _ _ (Prod.ext rfl failed)).1
  revert same
  decide +kernel

/-! ## Validated blocks -/

/-- `validateBlock` accepting a block means that it applies without error, and that each of its
transactions is valid in the state the ones before it produce. -/
def AppliesAsValidated (lib : Stdlib) (amb : Ambient) (n : Node) (block : Block) : Prop :=
  validateBlock lib amb n.utxoSet block = .ok () →
    (addBlockToBlockchain lib amb.utxoOrder n block).2 = .ok ∧
      ∀ before t after, block.transactions = before ++ t :: after →
        ∃ s, applyTransactions amb.utxoOrder n.utxoSet before = (s, none) ∧
          validateTransaction lib amb s t = .ok ()

end Node

/-- After the transactions `before` of the same block, `t` finds what it needs: a name it registers
has not been touched, and a name it consumes has not been touched or was last given to the owner
that `t` names, for no longer than `t` gives it. -/
def Fits (before : List Transaction) (t : Transaction) : Prop :=
  if t.consumes then
    ∀ entry, lastTouch Transaction.effect before t.input.domainName = some entry →
      ∃ u, entry = some u ∧ u.owner = t.input.owner ∧ u.expiration ≤ t.output.expiration
  else
    lastTouch Transaction.effect before t.output.domainName = none

section Validated

variable {lib : Stdlib} {amb : Ambient} {order : UTXOOrder} {s : UTXOSet} {now : Time}

/-- Nothing a block of valid transactions touches is released unless it was registered before. -/
theorem get_ne_none_of_released {before : List Transaction} {d : GoString}
    (valid : ∀ t ∈ before, t.Valid now s)
    (released : lastTouch Transaction.effect before d = some none) : s.get d ≠ none := by
  obtain ⟨earlier, t, later, split, touched, -⟩ := lastTouch_eq_some.mp released
  obtain ⟨consumes, name, -⟩ := Transaction.effect_eq_some_none touched
  obtain ⟨-, -, check⟩ := valid t (by simp [split])
  unfold Transaction.consumes at consumes
  cases type : t.type with
  | nameNew => simp [type] at consumes
  | nameFirstUpdate =>
      simp only [type] at check
      obtain ⟨-, u, present, -⟩ := check
      rw [← name, present]
      exact Option.some_ne_none u
  | nameUpdate =>
      simp only [type] at check
      obtain ⟨-, u, present, -⟩ := check
      rw [← name, present]
      exact Option.some_ne_none u
  | other name => simp [type] at consumes

theorem exists_entry_iff {before : List Transaction} {t : Transaction}
    (ok : (applyTransactions order s before).2 = none)
    (valid : ∃ u, s.get t.input.domainName = some u ∧ u.owner = t.input.owner ∧
      u.expiration ≤ t.output.expiration) :
    (∃ u, (applyTransactions order s before).1.get t.input.domainName = some u ∧
        u.owner = t.input.owner ∧ u.expiration ≤ t.output.expiration) ↔
      ∀ entry, lastTouch Transaction.effect before t.input.domainName = some entry →
        ∃ u, entry = some u ∧ u.owner = t.input.owner ∧ u.expiration ≤ t.output.expiration := by
  rw [applyTransactions_get ok]
  cases lastTouch Transaction.effect before t.input.domainName with
  | none => simpa using valid
  | some entry => simp

/-- A transaction valid before a block is valid in the middle of it exactly when it fits. -/
theorem valid_after_iff {before : List Transaction} {t : Transaction} (valid : t.Valid now s)
    (validBefore : ∀ t ∈ before, t.Valid now s)
    (ok : (applyTransactions order s before).2 = none) :
    t.Valid now (applyTransactions order s before).1 ↔ Fits before t := by
  obtain ⟨named, inTime, check⟩ := valid
  unfold Transaction.Valid Fits Transaction.consumes
  simp only [ne_eq, named, not_false_eq_true, inTime, true_and]
  cases type : t.type with
  | nameNew =>
      simp only [type] at check
      simp only [check.1, not_false_eq_true, true_and, Bool.false_eq_true, if_false]
      rw [applyTransactions_get ok]
      cases touched : lastTouch Transaction.effect before t.output.domainName with
      | none => simpa using check.2
      | some entry =>
          simp only [Option.getD_some, reduceCtorEq, iff_false]
          intro released
          rw [released] at touched
          exact get_ne_none_of_released validBefore touched check.2
  | nameFirstUpdate =>
      simp only [type] at check
      simp only [check.1, true_and, if_true]
      exact exists_entry_iff ok check.2
  | nameUpdate =>
      simp only [type] at check
      simp only [check.1, true_and, if_true]
      exact exists_entry_iff ok check.2
  | other name => simp [type] at check

/-- Transactions that all fit apply one after the other. -/
theorem applyTransactions_ok_of_fits {ts : List Transaction} (keyed : Keyed s)
    (valid : ∀ t ∈ ts, t.Valid now s)
    (fits : ∀ before t after, ts = before ++ t :: after → Fits before t) :
    (applyTransactions order s ts).2 = none := by
  induction ts using List.reverseRecOn with
  | nil => rfl
  | append_singleton ts t ih =>
      have validBefore : ∀ t' ∈ ts, t'.Valid now s := fun t' mem => valid t' (by simp [mem])
      have ok := ih validBefore fun before t' after split =>
        fits before t' (after ++ [t]) (by simp [split])
      have validAfter := (valid_after_iff (valid t (by simp)) validBefore ok).mpr
        (fits ts t [] rfl)
      obtain ⟨s', applied⟩ := applyTransaction_ok_of_not_missing order
        (validAfter.not_missing (applyTransactions_keyed order keyed ts))
      rw [applyTransactions_append ok, applyTransactions, applied]
      rfl

end Validated

namespace Node

/-- **Validated blocks apply** exactly when no transaction of the block is in the way of a later
one, and the chain walk that ends `addBlockToBlockchain` comes to an end. -/
theorem appliesAsValidated_iff (lib : Stdlib) (order : UTXOOrder) (bcStore : Store)
    (es : List Event) (amb : Ambient) (block : Block) :
    AppliesAsValidated lib amb (afterEvents lib order bcStore es) block ↔
      (validateBlock lib amb (afterEvents lib order bcStore es).utxoSet block = .ok () →
        (∀ before t after, block.transactions = before ++ t :: after → Fits before t) ∧
          printAllNonces lib
            (storeBlock lib (afterEvents lib order bcStore es).bcStore block) ≠ none) := by
  have keyed := afterEvents_keyed lib order bcStore es
  generalize afterEvents lib order bcStore es = n at keyed ⊢
  refine imp_congr_right fun accepted => ?_
  have valid : ∀ t ∈ block.transactions, t.Valid amb.now n.utxoSet := fun t mem =>
    (validateTransaction_ok_iff keyed).mp ((validateBlock_ok_iff.mp accepted).2 t mem)
  have validBefore : ∀ {before t after}, block.transactions = before ++ t :: after →
      t.Valid amb.now n.utxoSet ∧ ∀ t' ∈ before, t'.Valid amb.now n.utxoSet :=
    fun split => ⟨valid _ (by simp [split]), fun t' mem => valid t' (by simp [split, mem])⟩
  rw [addBlockToBlockchain_ok_iff]
  constructor
  · intro applies
    rcases applies with ⟨⟨-, ends⟩, inTurn⟩
    refine ⟨fun before t after split => ?_, ends⟩
    obtain ⟨s, reached, validHere⟩ := inTurn before t after split
    have ok : (applyTransactions amb.utxoOrder n.utxoSet before).2 = none := by rw [reached]
    have keyedHere := applyTransactions_keyed amb.utxoOrder keyed before
    obtain ⟨validT, validTs⟩ := validBefore split
    rw [← valid_after_iff validT validTs ok, ← validateTransaction_ok_iff keyedHere, reached]
    exact validHere
  · intro condition
    rcases condition with ⟨fits, ends⟩
    have okAll : (applyTransactions amb.utxoOrder n.utxoSet block.transactions).2 = none :=
      applyTransactions_ok_of_fits keyed valid fits
    refine ⟨⟨?_, ends⟩, fun before t after split => ?_⟩
    · unfold applyBlock
      split
      · rfl
      · exact okAll
    · rw [split] at okAll
      have ok := applyTransactions_ok_of_prefix okAll
      refine ⟨_, Prod.ext rfl ok, ?_⟩
      have keyedHere := applyTransactions_keyed amb.utxoOrder keyed before
      obtain ⟨validT, validTs⟩ := validBefore split
      rw [validateTransaction_ok_iff keyedHere, valid_after_iff validT validTs ok]
      exact fits before t after split

/-- A block that registers `example.com`. -/
def registration : Block :=
  sampleBlock 1 [sampleTx .nameNew "tx1" .zero (sampleUTXO "example.com" "owner1" 10)]

/-- A block that spends its record twice. -/
def doubleSpend : Block :=
  sampleBlock 2
    [sampleTx .nameUpdate "tx2" (sampleUTXO "example.com" "owner1" 10)
        (sampleUTXO "example.com" "owner2" 10),
      sampleTx .nameUpdate "tx3" (sampleUTXO "example.com" "owner1" 10)
        (sampleUTXO "example.com" "owner3" 10)]

/-- Both updates are valid on the registered name, and the second finds it gone. -/
theorem doubleSpend_not_applied :
    ¬ AppliesAsValidated (sampleLib [registration, doubleSpend]) (sampleAmbient 0)
      (afterEvents (sampleLib [registration, doubleSpend]) .sorted sampleStore
        [.blockMessage (sampleAmbient 0) registration])
      doubleSpend := by
  intro applies
  have applied := (applies (by decide +kernel)).1
  revert applied
  decide +kernel

end Node

end Peerster
