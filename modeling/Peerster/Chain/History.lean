import Peerster.Chain.Application

/-!
# Records and the transactions that made them

A record is found by name and owner alone.  Which transaction made it is in no field of the node:
it is the last executed transaction of the run that touches the name (`exists_origin`).  Two
questions about later transactions are answered from that: whether a reveal consumes the
registration it belongs to, and whether a transaction that was applied once is accepted again.
-/

namespace Peerster

open LastTouch

/-- The last transaction of `h` that touches `d` is a `NameFirstUpdate` or `NameUpdate` that writes
it. -/
def LastWrittenByUpdate (h : List Transaction) (d : GoString) : Prop :=
  ∃ earlier c later, h = earlier ++ c :: later ∧ c.consumes = true ∧ c.output.domainName = d ∧
    ∀ t ∈ later, t.effect d = none

/-- The last transaction of `h` that touches `u.domainName` is a `NameNew` that writes `u`. -/
def RegisteredBy (h : List Transaction) (u : UTXO) : Prop :=
  ∃ earlier c later, h = earlier ++ c :: later ∧ c.type = .nameNew ∧ c.output = u ∧
    ∀ t ∈ later, t.effect u.domainName = none

theorem Transaction.effect_ne_none_of_consumes {t : Transaction} {d : GoString}
    (consumes : t.consumes = true) (name : t.output.domainName = d ∨ t.input.domainName = d) :
    t.effect d ≠ none := by
  rw [effect_of_consumes consumes]
  split
  · simp
  · next other =>
    rw [if_pos (name.resolve_left other)]
    simp

theorem Transaction.effect_of_nameNew {t : Transaction} (type : t.type = .nameNew) :
    t.effect t.output.domainName = some (some t.output) := by
  simp [effect, type]

/-- A transaction that writes a record registers or consumes. -/
theorem Transaction.type_of_writes {t : Transaction} {d : GoString} {u : UTXO}
    (writes : t.effect d = some (some u)) : t.type = .nameNew ∨ t.consumes = true := by
  unfold effect at writes
  unfold consumes
  cases type : t.type with
  | nameNew => exact .inl rfl
  | nameFirstUpdate => exact .inr rfl
  | nameUpdate => exact .inr rfl
  | other kind => simp [type] at writes

/-- A record was written by a registration or by an update, and not touched since. -/
theorem exists_origin {h : List Transaction} {d : GoString} {u : UTXO} (name : u.domainName = d)
    (written : lastTouch Transaction.effect h d = some (some u)) :
    RegisteredBy h u ∨ LastWrittenByUpdate h d := by
  obtain ⟨earlier, c, later, split, writes, untouched⟩ := lastTouch_eq_some.mp written
  obtain ⟨output, writesName⟩ := Transaction.effect_eq_some_some writes
  rcases Transaction.type_of_writes writes with type | consumes
  · exact .inl ⟨earlier, c, later, split, type, output, name ▸ untouched⟩
  · exact .inr ⟨earlier, c, later, split, consumes, writesName, untouched⟩

theorem not_lastWrittenByUpdate_of_registeredBy {h : List Transaction} {u : UTXO}
    (registered : RegisteredBy h u) : ¬ LastWrittenByUpdate h u.domainName := by
  intro updated
  rcases updated with ⟨earlier', c', later', split', consumes, writesName, untouched'⟩
  obtain ⟨earlier, c, later, split, type, rfl, untouched⟩ := registered
  have same : c = c' := lastTouch_op_unique (split.symm.trans split')
    (by rw [Transaction.effect_of_nameNew type]; exact Option.some_ne_none _)
    (Transaction.effect_ne_none_of_consumes consumes (.inl writesName)) untouched untouched'
  rw [← same] at consumes
  simp [Transaction.consumes, type] at consumes

/-! ## Commitments and reveals -/

/-- Neither `t` nor a transaction of the block before it finds its input gone. -/
def Reached (s : UTXOSet) (before : List Transaction) (t : Transaction) : Prop :=
  ∀ earlier t' later, before ++ [t] = earlier ++ t' :: later → ¬ Stuck s earlier t'

/-- A reached transaction that consumes finds its input once those before it are applied. -/
theorem reached_iff (order : UTXOOrder) {s : UTXOSet} {before : List Transaction} {t : Transaction}
    (consumes : t.consumes = true) :
    Reached s before t ↔
      ∃ s' u, applyTransactions order s before = (s', none) ∧
        findUTXO order s' t.input = .ok u := by
  have ok_iff : (applyTransactions order s (before ++ [t])).2 = none ↔ Reached s before t :=
    applyTransactions_ok_iff
  rw [← ok_iff]
  constructor
  · intro ok
    have okBefore := applyTransactions_ok_of_prefix ok
    rw [applyTransactions_append okBefore] at ok
    have there : ¬ Missing (applyTransactions order s before).1 t := by
      intro missing
      obtain ⟨err, refused⟩ := applyTransaction_error_iff.mpr missing
      rw [applyTransactions, refused] at ok
      cases ok
    obtain ⟨u, found⟩ := (exists_findUTXO_iff order).mpr
      (not_not.mp fun absent => there ⟨consumes, absent⟩)
    exact ⟨_, u, Prod.ext rfl okBefore, found⟩
  · intro reaches
    rcases reaches with ⟨s', u, reached, found⟩
    have holds : Holds s' t.input := (exists_findUTXO_iff order).mp ⟨u, found⟩
    obtain ⟨s'', applied⟩ := applyTransaction_ok_of_not_missing order
      (fun missing : Missing s' t => missing.2 holds)
    rw [applyTransactions_append (by rw [reached]), reached, applyTransactions, applied]
    rfl

namespace Node

section Runs

variable (lib : Stdlib) (order : UTXOOrder) (bcStore : Store) (es : List Event)

/-- In the middle of a block after a run, the entry of a name is the last touch of it in the run and
the block so far. -/
theorem get_after_transactions {order' : UTXOOrder} {s : UTXOSet} {before : List Transaction}
    (applied : applyTransactions order' (afterEvents lib order bcStore es).utxoSet before =
      (s, none)) (d : GoString) :
    s.get d =
      (lastTouch Transaction.effect (history lib order bcStore es ++ before) d).getD none := by
  have ok : (applyTransactions order' (afterEvents lib order bcStore es).utxoSet before).2 = none :=
    by rw [applied]
  have entry := applyTransactions_get ok d
  rw [applied, afterEvents_get] at entry
  rw [entry, lastTouch_append]
  cases lastTouch Transaction.effect before d <;> rfl

/-- After a run, if `validateBlock` accepts a block then the record that a `NameFirstUpdate` of the
block consumes is named by the hash of what it reveals, and was made by a `NameNew`. -/
def RevealsCommitments (amb : Ambient) (block : Block) : Prop :=
  validateBlock lib amb (afterEvents lib order bcStore es).utxoSet block = .ok () →
    block.nonce ≠ 0 →
    ∀ before t after, block.transactions = before ++ t :: after → t.type = .nameFirstUpdate →
      ∀ s u, applyTransactions amb.utxoOrder (afterEvents lib order bcStore es).utxoSet before =
          (s, none) → findUTXO amb.utxoOrder s t.input = .ok u →
        u.domainName = hashDomain lib.sha256 t.salt t.plainDomain ∧
          RegisteredBy (history lib order bcStore es ++ before) u

/-- **Commit and reveal.**  A reveal is sound exactly when its input is the hash of what it reveals,
and that name was not last written by an update or by another reveal. -/
theorem revealsCommitments_iff (amb : Ambient) (block : Block) :
    RevealsCommitments lib order bcStore es amb block ↔
      (validateBlock lib amb (afterEvents lib order bcStore es).utxoSet block = .ok () →
        block.nonce ≠ 0 →
        ∀ before t after, block.transactions = before ++ t :: after →
          t.type = .nameFirstUpdate →
          Reached (afterEvents lib order bcStore es).utxoSet before t →
            t.input.domainName = hashDomain lib.sha256 t.salt t.plainDomain ∧
              ¬ LastWrittenByUpdate (history lib order bcStore es ++ before)
                t.input.domainName) := by
  have keyed := afterEvents_keyed lib order bcStore es
  refine imp_congr_right fun _ => imp_congr_right fun _ => forall_congr' fun before =>
    forall_congr' fun t => forall_congr' fun after => imp_congr_right fun _ =>
      imp_congr_right fun type => ?_
  have consumes : t.consumes = true := by simp [Transaction.consumes, type]
  constructor
  · intro sound reached
    obtain ⟨s, u, applied, found⟩ := (reached_iff amb.utxoOrder consumes).mp reached
    obtain ⟨hashed, registered⟩ := sound s u applied found
    have name : u.domainName = t.input.domainName := (findUTXO_ok found).2.1
    rw [← name]
    exact ⟨hashed, not_lastWrittenByUpdate_of_registeredBy registered⟩
  · intro condition s u applied found
    obtain ⟨hashed, notUpdated⟩ :=
      condition ((reached_iff amb.utxoOrder consumes).mpr ⟨s, u, applied, found⟩)
    have name : u.domainName = t.input.domainName := (findUTXO_ok found).2.1
    have keyedHere : Keyed s := by
      have kept := applyTransactions_keyed amb.utxoOrder keyed before
      rwa [applied] at kept
    have present := ((findUTXO_ok_iff keyedHere).mp found).1
    rw [get_after_transactions lib order bcStore es applied] at present
    have written : lastTouch Transaction.effect (history lib order bcStore es ++ before)
        t.input.domainName = some (some u) := by
      cases touched : lastTouch Transaction.effect (history lib order bcStore es ++ before)
          t.input.domainName with
      | none =>
          rw [touched] at present
          cases present
      | some entry =>
          rw [touched, Option.getD_some] at present
          rw [present]
    refine ⟨name.trans hashed, ?_⟩
    rcases exists_origin name written with registered | updated
    · exact registered
    · exact (notUpdated updated).elim

end Runs

/-- A registration of a name that is no hash. -/
def commitment : Block :=
  sampleBlock 1 [sampleTx .nameNew "tx1" .zero (sampleUTXO "commitment" "owner1" 10)]

/-- Its reveal as `example.com`. -/
def reveal : Block :=
  sampleBlock 2 [sampleTx .nameFirstUpdate "tx2" (sampleUTXO "commitment" "owner1" 10)
    (sampleUTXO "example.com" "owner1" 10)]

/-- The reveal is accepted, although no hash is ten bytes long. -/
theorem reveal_without_commitment :
    ¬ RevealsCommitments (sampleLib [commitment, reveal]) .sorted sampleStore (deliver [commitment])
      (sampleAmbient 0) reveal := by
  intro sound
  have hashed := (sound (by decide +kernel) (by decide) [] _ [] rfl rfl _
    (sampleUTXO "commitment" "owner1" 10) rfl (by decide +kernel)).1
  revert hashed
  decide +kernel

end Node

/-! ## Replays -/

/-- Since the transaction `t` was executed, nothing has made it valid again: a name it registers has
not been given up, and the input it consumed has not come back, for the same owner and for no
longer than `t` grants. -/
def StaysSpent (t : Transaction) (since : List Transaction) : Prop :=
  match t.type with
  | .nameNew =>
      ∀ earlier c later, since = earlier ++ c :: later → c.consumes = true →
        c.input.domainName = t.output.domainName → c.output.domainName ≠ t.output.domainName →
          ∃ t' ∈ later, t'.effect t.output.domainName ≠ none
  | .nameFirstUpdate | .nameUpdate =>
      ∀ earlier c later, t :: since = earlier ++ c :: later →
        c.output.domainName = t.input.domainName → c.output.owner = t.input.owner →
          c.output.expiration ≤ t.output.expiration →
            ∃ t' ∈ later, t'.effect t.input.domainName ≠ none
  | .other _ => True

/-- A registration that stays spent finds its name taken. -/
theorem get_ne_none_of_staysSpent {before since : List Transaction} {t : Transaction}
    (type : t.type = .nameNew) (spent : StaysSpent t since) :
    (lastTouch Transaction.effect (before ++ t :: since) t.output.domainName).getD none ≠
      none := by
  rw [lastTouch_append, lastTouch_cons, Transaction.effect_of_nameNew type]
  cases touched : lastTouch Transaction.effect since t.output.domainName with
  | none => simp
  | some entry =>
      cases entry with
      | some u => simp
      | none =>
          obtain ⟨earlier, c, later, split, released, untouched⟩ := lastTouch_eq_some.mp touched
          obtain ⟨consumes, name, other⟩ := Transaction.effect_eq_some_none released
          simp only [StaysSpent, type] at spent
          obtain ⟨t', mem, touches⟩ := spent earlier c later split consumes name other
          exact (touches (untouched t' mem)).elim

/-- A transaction that consumes and stays spent does not find its input. -/
theorem input_gone_of_staysSpent {before since : List Transaction} {t : Transaction}
    (consumes : t.consumes = true) (spent : StaysSpent t since) {u : UTXO}
    (present : (lastTouch Transaction.effect (before ++ t :: since) t.input.domainName).getD none =
      some u)
    (owner : u.owner = t.input.owner) : ¬ u.expiration ≤ t.output.expiration := by
  intro earlierExpiration
  have touches := Transaction.effect_ne_none_of_consumes consumes (.inr rfl)
  have written : lastTouch Transaction.effect (t :: since) t.input.domainName =
      some (some u) := by
    rw [lastTouch_append] at present
    cases touched : lastTouch Transaction.effect (t :: since) t.input.domainName with
    | none => exact (touches (lastTouch_eq_none.mp touched t List.mem_cons_self)).elim
    | some entry =>
        rw [touched, Option.some_or, Option.getD_some] at present
        rw [present]
  obtain ⟨earlier, c, later, split, writes, untouched⟩ := lastTouch_eq_some.mp written
  obtain ⟨rfl, name⟩ := Transaction.effect_eq_some_some writes
  have again : ∃ t' ∈ later, t'.effect t.input.domainName ≠ none := by
    unfold Transaction.consumes at consumes
    unfold StaysSpent at spent
    cases type : t.type with
    | nameNew => simp [type] at consumes
    | nameFirstUpdate =>
        simp only [type] at spent
        exact spent earlier c later split name owner earlierExpiration
    | nameUpdate =>
        simp only [type] at spent
        exact spent earlier c later split name owner earlierExpiration
    | other kind => simp [type] at consumes
  obtain ⟨t', mem, touches'⟩ := again
  exact touches' (untouched t' mem)

/-- A transaction that stays spent is not valid. -/
theorem not_valid_of_staysSpent {before since : List Transaction} {t : Transaction} {s : UTXOSet}
    (spent : StaysSpent t since)
    (state : ∀ d, s.get d = (lastTouch Transaction.effect (before ++ t :: since) d).getD none)
    (now : Time) : ¬ t.Valid now s := by
  intro valid
  rcases valid with ⟨-, -, check⟩
  cases type : t.type with
  | nameNew =>
      simp only [type, state] at check
      exact get_ne_none_of_staysSpent type spent check.2
  | nameFirstUpdate =>
      simp only [type, state] at check
      obtain ⟨-, u, present, owner, expires⟩ := check
      exact input_gone_of_staysSpent (by simp [Transaction.consumes, type]) spent present owner
        expires
  | nameUpdate =>
      simp only [type, state] at check
      obtain ⟨-, u, present, owner, expires⟩ := check
      exact input_gone_of_staysSpent (by simp [Transaction.consumes, type]) spent present owner
        expires
  | other kind => simp [type] at check

namespace Node

/-- The node rejects `t` at any time: `validateTransaction` returns an error, and neither `t` itself
nor a block that contains it changes anything when it arrives. -/
def Rejects (lib : Stdlib) (n : Node) (t : Transaction) : Prop :=
  ∀ amb, (∃ err, validateTransaction lib amb n.utxoSet t = .error err) ∧
    (∃ err, n.handleTransactionMessage lib amb t = (n, .error err)) ∧
    ∀ block, t ∈ block.transactions → ∃ err, n.handleBlockMessage lib amb block = (n, .error err)

theorem rejects_of_not_valid {lib : Stdlib} {n : Node} {t : Transaction} (keyed : Keyed n.utxoSet)
    (invalid : ∀ now, ¬ t.Valid now n.utxoSet) : n.Rejects lib t := by
  intro amb
  have refused : ∃ err, validateTransaction lib amb n.utxoSet t = .error err := by
    cases result : validateTransaction lib amb n.utxoSet t with
    | error err => exact ⟨err, rfl⟩
    | ok done => exact (invalid amb.now ((validateTransaction_ok_iff keyed).mp result)).elim
  obtain ⟨err, refused⟩ := refused
  refine ⟨⟨err, refused⟩, ⟨err, ?_⟩, fun block mem => ?_⟩
  · rw [handleTransactionMessage, refused]
  · cases result : validateBlock lib amb n.utxoSet block with
    | error err' => exact ⟨err', by rw [handleBlockMessage, result]⟩
    | ok done =>
        have accepted := (validateBlock_ok_iff.mp result).2 t mem
        rw [refused] at accepted
        cases accepted

/-- Every transaction executed in a run is rejected after it. -/
def NoReplay (lib : Stdlib) (order : UTXOOrder) (bcStore : Store) (es : List Event) : Prop :=
  ∀ t ∈ history lib order bcStore es, (afterEvents lib order bcStore es).Rejects lib t

/-- **No replay**, as long as the executed transaction stays spent: the node rejects it in every
later state, and a message with it leaves the node as it was. -/
theorem rejects_of_staysSpent (lib : Stdlib) (order : UTXOOrder) (bcStore : Store)
    (es : List Event) (before since : List Transaction) (t : Transaction)
    (executed : history lib order bcStore es = before ++ t :: since)
    (spent : StaysSpent t since) : (afterEvents lib order bcStore es).Rejects lib t := by
  refine rejects_of_not_valid (afterEvents_keyed lib order bcStore es) fun now => ?_
  have state := afterEvents_get lib order bcStore es
  rw [executed] at state
  exact not_valid_of_staysSpent spent state now

/-- `owner1` registers `example.com` and hands it to `owner2`. -/
def handover : List Block :=
  [registration,
    sampleBlock 2 [sampleTx .nameUpdate "tx2" (sampleUTXO "example.com" "owner1" 10)
      (sampleUTXO "example.com" "owner2" 10)]]

/-- `owner1` cannot hand it over a second time. -/
theorem handover_not_replayed :
    (afterEvents (sampleLib handover) .sorted sampleStore (deliver handover)).Rejects
      (sampleLib handover)
      (sampleTx .nameUpdate "tx2" (sampleUTXO "example.com" "owner1" 10)
        (sampleUTXO "example.com" "owner2" 10)) := by
  refine rejects_of_staysSpent _ _ _ _
    [sampleTx .nameNew "tx1" .zero (sampleUTXO "example.com" "owner1" 10)] [] _
    (by decide +kernel) ?_
  intro earlier c later split name owner expires
  have only : c = sampleTx .nameUpdate "tx2" (sampleUTXO "example.com" "owner1" 10)
      (sampleUTXO "example.com" "owner2" 10) := by
    cases earlier with
    | nil => exact (List.cons.inj split).1.symm
    | cons first earlier => simp at split
  rw [only] at owner
  exact absurd owner (by decide +kernel)

/-- A registration is accepted again once its name has been revealed. -/
theorem commitment_replayed :
    ¬ NoReplay (sampleLib [commitment, reveal]) .sorted sampleStore
      (deliver [commitment, reveal]) := by
  intro noReplay
  have rejected := (noReplay (sampleTx .nameNew "tx1" .zero (sampleUTXO "commitment" "owner1" 10))
    (by decide +kernel) (sampleAmbient 0)).1
  have accepted : validateTransaction (sampleLib [commitment, reveal]) (sampleAmbient 0)
      (afterEvents (sampleLib [commitment, reveal]) .sorted sampleStore
        (deliver [commitment, reveal])).utxoSet
      (sampleTx .nameNew "tx1" .zero (sampleUTXO "commitment" "owner1" 10)) = .ok () := by
    decide +kernel
  obtain ⟨err, refused⟩ := rejected
  rw [accepted] at refused
  cases refused

end Node

end Peerster
