import Peerster.Chain.Blockchain
import Peerster.Lib.LastTouch

/-!
# What transactions do to names

The loop of `addBlockToBlockchain`, seen from one name: a transaction leaves the entry of a name
alone or replaces it (`Transaction.effect`), it can be applied or not (`Missing`), and the entry
after a list of applied transactions is the effect of the last one that touches the name
(`applyTransactions_get`).  On a keyed set, validation is a condition on the entry of one name
(`validateTransaction_ok_iff`).
-/

namespace Peerster

open LastTouch

namespace Transaction

/-- A `NameFirstUpdate` or a `NameUpdate`: a transaction that consumes its input. -/
def consumes (t : Transaction) : Bool :=
  match t.type with
  | .nameFirstUpdate | .nameUpdate => true
  | .nameNew | .other _ => false

/-- What a transaction makes of the entry of a name. -/
def effect (t : Transaction) (d : GoString) : Option (Option UTXO) :=
  match t.type with
  | .nameNew => if t.output.domainName = d then some (some t.output) else none
  | .nameFirstUpdate | .nameUpdate =>
      if t.output.domainName = d then some (some t.output)
      else if t.input.domainName = d then some none
      else none
  | .other _ => none

/-- `t` consumes the record of `d` owned by `o`. -/
def Spends (t : Transaction) (d o : GoString) : Prop :=
  t.consumes = true ∧ t.input.domainName = d ∧ t.input.owner = o

instance (t : Transaction) (d o : GoString) : Decidable (t.Spends d o) :=
  inferInstanceAs (Decidable (_ ∧ _ ∧ _))

theorem effect_of_consumes {t : Transaction} (consumes : t.consumes = true) (d : GoString) :
    t.effect d = if t.output.domainName = d then some (some t.output)
      else if t.input.domainName = d then some none else none := by
  unfold effect
  unfold Transaction.consumes at consumes
  split at consumes
  · next type => rw [type]
  · next type => rw [type]
  · cases consumes
  · cases consumes

theorem effect_eq_some_some {t : Transaction} {d : GoString} {u : UTXO}
    (touched : t.effect d = some (some u)) : t.output = u ∧ t.output.domainName = d := by
  unfold effect at touched
  split at touched
  · split at touched
    · next name =>
      cases touched
      exact ⟨rfl, name⟩
    · cases touched
  · split at touched
    · next name =>
      cases touched
      exact ⟨rfl, name⟩
    · split at touched <;> cases touched
  · split at touched
    · next name =>
      cases touched
      exact ⟨rfl, name⟩
    · split at touched <;> cases touched
  · cases touched

theorem effect_eq_some_none {t : Transaction} {d : GoString} (touched : t.effect d = some none) :
    t.consumes = true ∧ t.input.domainName = d ∧ t.output.domainName ≠ d := by
  by_cases consumes : t.consumes = true
  · rw [effect_of_consumes consumes] at touched
    split at touched
    · cases touched
    · next other =>
      split at touched
      · next name => exact ⟨consumes, name, other⟩
      · cases touched
  · exfalso
    unfold effect at touched
    unfold Transaction.consumes at consumes
    cases type : t.type with
    | nameNew =>
        simp only [type] at touched
        split at touched <;> cases touched
    | nameFirstUpdate => simp [type] at consumes
    | nameUpdate => simp [type] at consumes
    | other name => simp [type] at touched

end Transaction

/-! ## One transaction -/

/-- `addBlockToBlockchain` stops at `t` on this set: its input is not there. -/
def Missing (utxoSet : UTXOSet) (t : Transaction) : Prop :=
  t.consumes = true ∧ ¬ Holds utxoSet t.input

theorem newUTXO_eq (t : Transaction) : newUTXO t = t.output := rfl

theorem consumeUTXO_ok_get {order : UTXOOrder} {s s' : UTXOSet} {t : Transaction}
    {notFound : GoString} (consumes : t.consumes = true)
    (applied : consumeUTXO order s t notFound = .ok s') (d : GoString) :
    s'.get d = (t.effect d).getD (s.get d) := by
  unfold consumeUTXO at applied
  split at applied
  · cases applied
  · cases applied
    rw [Transaction.effect_of_consumes consumes]
    simp only [addUTXO, removeUTXO, newUTXO_eq, FinMap.get_add, FinMap.get_remove, eq_comm (a := d)]
    split
    · rfl
    · split <;> rfl

/-- An applied transaction acts on every name by its effect. -/
theorem applyTransaction_get {order : UTXOOrder} {s s' : UTXOSet} {t : Transaction}
    (applied : applyTransaction order s t = .ok s') (d : GoString) :
    s'.get d = (t.effect d).getD (s.get d) := by
  unfold applyTransaction at applied
  cases type : t.type with
  | nameNew =>
      simp only [type] at applied
      cases applied
      simp only [Transaction.effect, type, addUTXO, newUTXO_eq, FinMap.get_add, eq_comm (a := d)]
      split <;> rfl
  | nameFirstUpdate =>
      simp only [type] at applied
      exact consumeUTXO_ok_get (by simp [Transaction.consumes, type]) applied d
  | nameUpdate =>
      simp only [type] at applied
      exact consumeUTXO_ok_get (by simp [Transaction.consumes, type]) applied d
  | other name =>
      simp only [type] at applied
      cases applied
      simp [Transaction.effect, type]

theorem consumeUTXO_error_iff {order : UTXOOrder} {s : UTXOSet} {t : Transaction}
    {notFound : GoString} :
    (∃ err, consumeUTXO order s t notFound = .error err) ↔ ¬ Holds s t.input := by
  rw [← findUTXO_error_iff order]
  unfold consumeUTXO
  cases findUTXO order s t.input <;> simp

/-- A transaction is refused exactly when it consumes a record that is not there. -/
theorem applyTransaction_error_iff {order : UTXOOrder} {s : UTXOSet} {t : Transaction} :
    (∃ err, applyTransaction order s t = .error err) ↔ Missing s t := by
  unfold applyTransaction Missing Transaction.consumes
  cases type : t.type with
  | nameNew => simp
  | nameFirstUpdate => simpa using consumeUTXO_error_iff
  | nameUpdate => simpa using consumeUTXO_error_iff
  | other name => simp

theorem applyTransaction_ok_of_not_missing (order : UTXOOrder) {s : UTXOSet} {t : Transaction}
    (there : ¬ Missing s t) : ∃ s', applyTransaction order s t = .ok s' := by
  cases result : applyTransaction order s t with
  | error err => exact (there (applyTransaction_error_iff.mp ⟨err, result⟩)).elim
  | ok s' => exact ⟨s', rfl⟩

theorem applyTransaction_keyed {order : UTXOOrder} {s s' : UTXOSet} {t : Transaction}
    (keyed : Keyed s) (applied : applyTransaction order s t = .ok s') : Keyed s' := by
  intro d u present
  rw [applyTransaction_get applied] at present
  cases touched : t.effect d with
  | none =>
      rw [touched] at present
      exact keyed d u present
  | some entry =>
      rw [touched, Option.getD_some] at present
      subst present
      obtain ⟨rfl, name⟩ := Transaction.effect_eq_some_some touched
      exact name

/-! ## A list of transactions -/

/-- The transactions the loop of `addBlockToBlockchain` executes: all of them, or those before the
first one it is stopped at. -/
def executed (order : UTXOOrder) : UTXOSet → List Transaction → List Transaction
  | _, [] => []
  | s, t :: ts =>
      match applyTransaction order s t with
      | .error _ => []
      | .ok s' => t :: executed order s' ts

/-- The entry of a name after the loop is the last executed touch of it. -/
theorem applyTransactions_get_executed (order : UTXOOrder) (s : UTXOSet) (ts : List Transaction)
    (d : GoString) :
    (applyTransactions order s ts).1.get d =
      (lastTouch Transaction.effect (executed order s ts) d).getD (s.get d) := by
  induction ts generalizing s with
  | nil => rfl
  | cons t ts ih =>
      unfold applyTransactions executed
      cases applied : applyTransaction order s t with
      | error err => rfl
      | ok s' =>
          simp only [ih, lastTouch_cons, applyTransaction_get applied]
          cases lastTouch Transaction.effect (executed order s' ts) d <;> rfl

theorem executed_eq_of_ok {order : UTXOOrder} {s : UTXOSet} {ts : List Transaction}
    (ok : (applyTransactions order s ts).2 = none) : executed order s ts = ts := by
  induction ts generalizing s with
  | nil => rfl
  | cons t ts ih =>
      unfold applyTransactions at ok
      unfold executed
      cases applied : applyTransaction order s t with
      | error err =>
          rw [applied] at ok
          cases ok
      | ok s' =>
          rw [applied] at ok
          simp only [ih ok]

/-- **Last touch wins.**  After transactions that all apply, the entry of a name is what the last
one that touches it makes of it. -/
theorem applyTransactions_get {order : UTXOOrder} {s : UTXOSet} {ts : List Transaction}
    (ok : (applyTransactions order s ts).2 = none) (d : GoString) :
    (applyTransactions order s ts).1.get d =
      (lastTouch Transaction.effect ts d).getD (s.get d) := by
  rw [applyTransactions_get_executed, executed_eq_of_ok ok]

theorem applyTransactions_keyed (order : UTXOOrder) {s : UTXOSet} (keyed : Keyed s)
    (ts : List Transaction) : Keyed (applyTransactions order s ts).1 := by
  induction ts generalizing s with
  | nil => exact keyed
  | cons t ts ih =>
      unfold applyTransactions
      cases applied : applyTransaction order s t with
      | error err => exact keyed
      | ok s' => exact ih (applyTransaction_keyed keyed applied)

theorem applyTransactions_append {order : UTXOOrder} {s : UTXOSet} {ts : List Transaction}
    (ok : (applyTransactions order s ts).2 = none) (ts' : List Transaction) :
    applyTransactions order s (ts ++ ts') =
      applyTransactions order (applyTransactions order s ts).1 ts' := by
  induction ts generalizing s with
  | nil => rfl
  | cons t ts ih =>
      simp only [List.cons_append, applyTransactions] at ok ⊢
      cases applied : applyTransaction order s t with
      | error err =>
          rw [applied] at ok
          cases ok
      | ok s' =>
          rw [applied] at ok
          exact ih ok

/-! ## Validity -/

/-- What `validateTransaction` requires of a transaction, on a set with every record under its own
name. -/
def Transaction.Valid (now : Time) (s : UTXOSet) (t : Transaction) : Prop :=
  t.id ≠ [] ∧ now ≤ t.output.expiration ∧
    match t.type with
    | .nameNew => t.output.domainName ≠ [] ∧ s.get t.output.domainName = none
    | .nameFirstUpdate =>
        t.output.domainName = t.plainDomain ∧
          ∃ u, s.get t.input.domainName = some u ∧ u.owner = t.input.owner ∧
            u.expiration ≤ t.output.expiration
    | .nameUpdate =>
        t.output.domainName = t.input.domainName ∧
          ∃ u, s.get t.input.domainName = some u ∧ u.owner = t.input.owner ∧
            u.expiration ≤ t.output.expiration
    | .other _ => False

theorem validateNameNew_ok_iff {amb : Ambient} {s : UTXOSet} {t : Transaction} (keyed : Keyed s) :
    validateNameNew amb s t = .ok () ↔
      amb.now ≤ t.output.expiration ∧ t.output.domainName ≠ [] ∧
        s.get t.output.domainName = none := by
  have taken : ((FinMap.values amb.utxoOrder s).any
      fun utxo => utxo.domainName = t.output.domainName) = true ↔
      s.get t.output.domainName ≠ none := by
    simp only [List.any_eq_true, FinMap.mem_values, decide_eq_true_eq]
    constructor
    · intro taken
      rcases taken with ⟨u, ⟨k, present⟩, name⟩
      rw [← name, keyed k u present, present]
      exact Option.some_ne_none u
    · intro present
      obtain ⟨u, present⟩ := Option.ne_none_iff_exists'.mp present
      exact ⟨u, ⟨_, present⟩, keyed _ _ present⟩
  unfold validateNameNew
  by_cases unnamed : t.output.domainName.length = 0
  · have unnamed' : t.output.domainName = [] := List.length_eq_zero_iff.mp unnamed
    simp [unnamed']
  · have named : t.output.domainName ≠ [] := fun h => unnamed (by rw [h]; rfl)
    rw [if_neg unnamed]
    by_cases free : s.get t.output.domainName = none
    · rw [if_neg (fun h => (taken.mp h) free)]
      by_cases late : t.output.expiration < amb.now
      · simp only [late, if_true, reduceCtorEq, false_iff]
        exact fun h => absurd h.1 (not_le.mpr late)
      · simp only [late, if_false, true_iff]
        exact ⟨not_lt.mp late, named, free⟩
    · rw [if_pos (taken.mpr free)]
      simp [free]

/-- A transaction whose input is not found consumes no record of its owner. -/
theorem input_absent_of_error {order : UTXOOrder} {s : UTXOSet} {t : Transaction} {err : GoString}
    (keyed : Keyed s) (missing : findUTXO order s t.input = .error err) :
    ¬ ∃ u, s.get t.input.domainName = some u ∧ u.owner = t.input.owner ∧
      u.expiration ≤ t.output.expiration := by
  rintro ⟨u, present, owner, -⟩
  exact (findUTXO_error_iff _).mp ⟨err, missing⟩
    ((holds_iff_of_keyed keyed).mpr ⟨u, present, owner⟩)

theorem validateNameFirstUpdate_ok_iff {lib : Stdlib} {amb : Ambient} {s : UTXOSet}
    {t : Transaction} (keyed : Keyed s) :
    validateNameFirstUpdate lib amb s t = .ok () ↔
      amb.now ≤ t.output.expiration ∧ t.output.domainName = t.plainDomain ∧
        ∃ u, s.get t.input.domainName = some u ∧ u.owner = t.input.owner ∧
          u.expiration ≤ t.output.expiration := by
  unfold validateNameFirstUpdate
  cases found : findUTXO amb.utxoOrder s t.input with
  | error err =>
      simp only [reduceCtorEq, false_iff]
      exact fun valid => input_absent_of_error keyed found valid.2.2
  | ok u =>
      obtain ⟨present, owner⟩ := (findUTXO_ok_iff keyed).mp found
      have again : findUTXO amb.utxoOrder s u = .ok u :=
        (findUTXO_ok_iff keyed).mpr ⟨by rw [keyed _ _ present]; exact present, rfl⟩
      simp only [again, present, Option.some.injEq, exists_eq_left', owner, true_and]
      by_cases revealed : t.output.domainName = t.plainDomain
      · by_cases shorter : t.output.expiration < u.expiration
        · simp [revealed, shorter, not_le.mpr shorter]
        · by_cases late : t.output.expiration < amb.now
          · simp [revealed, shorter, late, not_le.mpr late]
          · simp [revealed, shorter, late, not_lt.mp shorter, not_lt.mp late]
      · simp [revealed]

theorem validateNameUpdate_ok_iff {amb : Ambient} {s : UTXOSet} {t : Transaction}
    (keyed : Keyed s) :
    validateNameUpdate amb s t = .ok () ↔
      amb.now ≤ t.output.expiration ∧ t.output.domainName = t.input.domainName ∧
        ∃ u, s.get t.input.domainName = some u ∧ u.owner = t.input.owner ∧
          u.expiration ≤ t.output.expiration := by
  unfold validateNameUpdate
  cases found : findUTXO amb.utxoOrder s t.input with
  | error err =>
      simp only [reduceCtorEq, false_iff]
      exact fun valid => input_absent_of_error keyed found valid.2.2
  | ok u =>
      obtain ⟨present, owner⟩ := (findUTXO_ok_iff keyed).mp found
      simp only [present, Option.some.injEq, exists_eq_left', owner, true_and,
        keyed _ _ present]
      by_cases same : t.output.domainName = t.input.domainName
      · by_cases shorter : t.output.expiration < u.expiration
        · simp [same, shorter, not_le.mpr shorter]
        · by_cases late : t.output.expiration < amb.now
          · simp [same, shorter, late, not_le.mpr late]
          · simp [same, shorter, late, not_lt.mp shorter, not_lt.mp late]
      · simp [same]

/-- On a keyed set validation does not depend on iteration order or on the hash function. -/
theorem validateTransaction_ok_iff {lib : Stdlib} {amb : Ambient} {s : UTXOSet} {t : Transaction}
    (keyed : Keyed s) : validateTransaction lib amb s t = .ok () ↔ t.Valid amb.now s := by
  unfold validateTransaction Transaction.Valid
  by_cases anonymous : t.id = []
  · simp [anonymous]
  · rw [if_neg anonymous]
    simp only [ne_eq, anonymous, not_false_eq_true, true_and]
    cases type : t.type with
    | nameNew => exact validateNameNew_ok_iff keyed
    | nameFirstUpdate => exact validateNameFirstUpdate_ok_iff keyed
    | nameUpdate => exact validateNameUpdate_ok_iff keyed
    | other name => simp

theorem validateTransactions_ok_iff {lib : Stdlib} {amb : Ambient} {s : UTXOSet} {i : Nat}
    {ts : List Transaction} :
    validateTransactions lib amb s i ts = .ok () ↔
      ∀ t ∈ ts, validateTransaction lib amb s t = .ok () := by
  induction ts generalizing i with
  | nil => simp [validateTransactions]
  | cons t ts ih =>
      unfold validateTransactions
      cases valid : validateTransaction lib amb s t with
      | error err => simp [valid]
      | ok done => simp [ih, valid]

theorem validateBlock_ok_iff {lib : Stdlib} {amb : Ambient} {s : UTXOSet} {b : Block} :
    validateBlock lib amb s b = .ok () ↔
      b.transactions ≠ [] ∧ ∀ t ∈ b.transactions, validateTransaction lib amb s t = .ok () := by
  unfold validateBlock
  by_cases vacant : b.transactions.length = 0
  · simp [List.length_eq_zero_iff.mp vacant]
  · have full : b.transactions ≠ [] := fun h => vacant (by rw [h]; rfl)
    rw [if_neg vacant, validateTransactions_ok_iff]
    simp [full]

/-- A valid transaction can be applied. -/
theorem Transaction.Valid.not_missing {now : Time} {s : UTXOSet} {t : Transaction}
    (keyed : Keyed s) (valid : t.Valid now s) : ¬ Missing s t := by
  intro missing
  rcases missing with ⟨consumes, absent⟩
  refine absent ((holds_iff_of_keyed keyed).mpr ?_)
  obtain ⟨-, -, valid⟩ := valid
  unfold Transaction.consumes at consumes
  cases type : t.type with
  | nameNew => simp [type] at consumes
  | nameFirstUpdate =>
      simp only [type] at valid
      obtain ⟨-, u, present, owner, -⟩ := valid
      exact ⟨u, present, owner⟩
  | nameUpdate =>
      simp only [type] at valid
      obtain ⟨-, u, present, owner, -⟩ := valid
      exact ⟨u, present, owner⟩
  | other name => simp [type] at consumes

end Peerster
