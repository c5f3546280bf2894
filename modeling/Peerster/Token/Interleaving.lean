import Peerster.Lib.Interleaving
import Peerster.Token

/-!
# Concurrent calls on a token

`SafeMap` locks each access by itself and the mutex of a `Token` covers its total supply alone, so
other calls get in between the accesses of a call.  `Running` is a call in progress and `act` its
next access.  A call takes effect with its first write, or with the read that makes it fail; the
order in which calls take effect is the sequential one, as long as no two calls hold an account
between reading it and writing it back (`sequential_of_apart`).
-/

namespace Peerster

namespace Token

/-- A call in progress: what it does next, with the values it has read. -/
inductive Running : Type
  | calling (c : Call)
  | adding (address : GoString) (initialBalance : List UInt64)
  | minting (address : GoString) (amount : UInt64) (currentBalance : Option UInt64)
  | burning (address : GoString) (amount currentBalance : UInt64)
  | transferring (sender recipient : GoString) (amount fromBalance : UInt64)
  | crediting (sender recipient : GoString) (amount fromBalance : UInt64)
      (toBalance : Option UInt64)
  | debiting (sender recipient : GoString) (amount fromBalance : UInt64)
  | counting (change : UInt64)
  | returned

/-- The new balance of `Mint` and of the recipient of `Transfer`. -/
def credited (amount : UInt64) : Option UInt64 → UInt64
  | none => amount
  | some balance => balance + amount

/-- The next access of a call: `Exists` or `Get`, then `Add` for each account it writes, then the
update of `TotalSupply`, to which `Burn` adds the negative of its amount. -/
def act (t : Token) : Running → Token × Running
  | .calling (.addAddress address initialBalance) =>
      if initialBalance.length > 1 then (t, .returned)
      else if t.balances.exists? address then (t, .returned)
      else (t, .adding address initialBalance)
  | .calling (.mint address amount) => (t, .minting address amount (t.balances.get address))
  | .calling (.burn address amount) =>
      match t.balances.get address with
      | none => (t, .returned)
      | some currentBalance =>
          if currentBalance < amount then (t, .returned)
          else (t, .burning address amount currentBalance)
  | .calling (.transfer sender recipient amount) =>
      match t.balances.get sender with
      | none => (t, .returned)
      | some fromBalance =>
          if fromBalance < amount then (t, .returned)
          else (t, .transferring sender recipient amount fromBalance)
  | .adding address initialBalance =>
      let balance := initialBalance.head?.getD 0
      ({ t with balances := t.balances.add address balance }, .counting balance)
  | .minting address amount currentBalance =>
      ({ t with balances := t.balances.add address (credited amount currentBalance) },
        .counting amount)
  | .burning address amount currentBalance =>
      ({ t with balances := t.balances.add address (currentBalance - amount) },
        .counting (-amount))
  | .transferring sender recipient amount fromBalance =>
      (t, .crediting sender recipient amount fromBalance (t.balances.get recipient))
  | .crediting sender recipient amount fromBalance toBalance =>
      ({ t with balances := t.balances.add recipient (credited amount toBalance) },
        .debiting sender recipient amount fromBalance)
  | .debiting sender _ amount fromBalance =>
      ({ t with balances := t.balances.add sender (fromBalance - amount) }, .returned)
  | .counting change => ({ t with totalSupply := t.totalSupply + change }, .returned)
  | .returned => (t, .returned)

/-- A token and the calls in progress on it. -/
abbrev Concurrent := Interleaving.Threads Token Running

/-- A token before the first access of some calls. -/
def concurrently (t : Token) (calls : List Call) : Concurrent := ⟨t, calls.map .calling⟩

/-- The token and the calls after the accesses of a schedule. -/
def interleaved (t : Token) (calls : List Call) (schedule : List Nat) : Concurrent :=
  Run.run (Interleaving.step act) (concurrently t calls) schedule

def Running.isReturned : Running → Bool
  | .returned => true
  | _ => false

/-- Every call has returned. -/
def AllReturned (s : Concurrent) : Prop := ∀ p ∈ s.running, p.isReturned = true

instance (s : Concurrent) : Decidable (AllReturned s) :=
  inferInstanceAs (Decidable (∀ p ∈ s.running, p.isReturned = true))

theorem Running.eq_returned {p : Running} (returned : p.isReturned = true) : p = .returned := by
  cases p <;> first | rfl | cases returned

/-- A call that is alone does what `call` does. -/
theorem interleaved_alone (t : Token) (c : Call) :
    interleaved t [c] [0, 0, 0, 0, 0] = ⟨t.call c, [.returned]⟩ := by
  cases c with
  | addAddress address initialBalance =>
      by_cases many : initialBalance.length > 1
      · simp [interleaved, concurrently, Interleaving.step, act, call, addAddress, many,
          Except.toOption]
      · cases present : t.balances.exists? address <;>
          simp [interleaved, concurrently, Interleaving.step, act, call, addAddress, many, present,
            Except.toOption]
  | mint address amount =>
      cases found : t.balances.get address <;>
        simp [interleaved, concurrently, Interleaving.step, act, call, mint, found, credited]
  | burn address amount =>
      cases found : t.balances.get address with
      | none =>
          simp [interleaved, concurrently, Interleaving.step, act, call, burn, found,
            Except.toOption]
      | some balance =>
          by_cases poor : balance < amount <;>
            simp [interleaved, concurrently, Interleaving.step, act, call, burn, found, poor,
              Except.toOption, sub_eq_add_neg]
  | transfer sender recipient amount =>
      cases found : t.balances.get sender with
      | none =>
          simp [interleaved, concurrently, Interleaving.step, act, call, transfer, found,
            Except.toOption]
      | some balance =>
          by_cases poor : balance < amount
          · simp [interleaved, concurrently, Interleaving.step, act, call, transfer, found, poor,
              Except.toOption]
          · cases foundTo : t.balances.get recipient <;>
              simp [interleaved, concurrently, Interleaving.step, act, call, transfer, found, poor,
                foundTo, credited, Except.toOption]

/-! ## Accounts in use -/

namespace Running

/-- The accounts that a call has read and has still to write. -/
def holds : Running → List GoString
  | .adding address _ => [address]
  | .minting address _ _ => [address]
  | .burning address _ _ => [address]
  | .transferring sender _ _ _ => [sender]
  | .crediting sender recipient _ _ _ => [sender, recipient]
  | .debiting sender _ _ _ => [sender]
  | _ => []

/-- The account that a call reads next. -/
def reads : Running → List GoString
  | .calling (.addAddress address initialBalance) =>
      if initialBalance.length > 1 then [] else [address]
  | .calling (.mint address _) => [address]
  | .calling (.burn address _) => [address]
  | .calling (.transfer sender _ _) => [sender]
  | .transferring _ recipient _ _ => [recipient]
  | _ => []

/-- The sender of a transfer between its two writes. -/
def debits : Running → List GoString
  | .debiting sender _ _ _ => [sender]
  | _ => []

/-- The account of a transfer to itself between its two writes. -/
def halfway : Running → List GoString
  | .debiting sender recipient _ _ => if sender = recipient then [sender] else []
  | _ => []

/-- What a call adds to the total supply, when its balances are written. -/
def due : Running → UInt64
  | .counting change => change
  | _ => 0

/-- The calls that have not taken effect. -/
def todo : Running → List Call
  | .calling c => [c]
  | .adding address initialBalance => [.addAddress address initialBalance]
  | .minting address amount _ => [.mint address amount]
  | .burning address amount _ => [.burn address amount]
  | .transferring sender recipient amount _ => [.transfer sender recipient amount]
  | .crediting sender recipient amount _ _ => [.transfer sender recipient amount]
  | _ => []

theorem debits_subset_holds (p : Running) : p.debits ⊆ p.holds := by
  cases p <;> first | exact List.Subset.refl _ | exact List.nil_subset _

end Running

/-- The call that an access makes take effect: the first write of a call does, or the access after
which it has failed. -/
def effect (t : Token) : Running → List Call
  | .calling c =>
      match (act t (.calling c)).2 with
      | .returned => [c]
      | _ => []
  | .adding address initialBalance => [.addAddress address initialBalance]
  | .minting address amount _ => [.mint address amount]
  | .burning address amount _ => [.burn address amount]
  | .crediting sender recipient amount _ _ => [.transfer sender recipient amount]
  | _ => []

/-- No account is held by two calls. -/
def Exclusive (s : Concurrent) : Prop :=
  s.running.Pairwise fun p q => ∀ a ∈ p.holds, a ∉ q.holds

/-- No call holds an account that another one holds, and the next access reads no account between
the two writes of a transfer to itself. -/
def Apart (s : Concurrent) (i : Nat) : Prop :=
  Exclusive s ∧ ∀ p ∈ s.running[i]?, ∀ a ∈ p.reads, ∀ q ∈ s.running, a ∉ q.halfway

instance (s : Concurrent) : Decidable (Exclusive s) :=
  inferInstanceAs (Decidable (s.running.Pairwise fun p q => ∀ a ∈ p.holds, a ∉ q.holds))

instance (s : Concurrent) (i : Nat) : Decidable (Apart s i) :=
  inferInstanceAs (Decidable (_ ∧ _))

/-! ## The sequential token -/

/-- What a call in progress has read is still there, on the token `t` that the calls share.  On `m`,
where every call that has taken effect is complete, the debit to come is made. -/
def Running.Fresh (m t : Token) : Running → Prop
  | .adding address initialBalance =>
      ¬ initialBalance.length > 1 ∧ t.balances.get address = none
  | .minting address _ currentBalance => t.balances.get address = currentBalance
  | .burning address amount currentBalance =>
      t.balances.get address = some currentBalance ∧ ¬ currentBalance < amount
  | .transferring sender _ amount fromBalance =>
      t.balances.get sender = some fromBalance ∧ ¬ fromBalance < amount
  | .crediting sender recipient amount fromBalance toBalance =>
      (t.balances.get sender = some fromBalance ∧ ¬ fromBalance < amount) ∧
        t.balances.get recipient = toBalance
  | .debiting sender recipient amount fromBalance =>
      m.balances.get sender = some (fromBalance - amount) ∧ ¬ fromBalance < amount ∧
        (sender ≠ recipient → t.balances.get sender = some fromBalance)
  | _ => True

/-- `m` is the token that the calls which have taken effect would have left, one after the other. -/
structure Matches (m t : Token) (ps : List Running) : Prop where
  labels : m.name = t.name ∧ m.shorthand = t.shorthand
  supply : m.totalSupply = t.totalSupply + (ps.map Running.due).sum
  fresh : ∀ p ∈ ps, p.Fresh m t
  settled : ∀ a, (∀ p ∈ ps, a ∉ p.debits) → m.balances.get a = t.balances.get a

/-- On the sequential token an account has the entry that a call reads, or less by a debit to
come. -/
def Below (m t : Token) (a : GoString) : Prop :=
  m.balances.get a = t.balances.get a ∨
    ∃ balance lower, t.balances.get a = some balance ∧ m.balances.get a = some lower ∧
      lower ≤ balance

namespace Matches

variable {m m' t t' : Token} {p p' : Running} {ps qs rest : List Running}

theorem perm (perm : ps.Perm qs) (related : Matches m t ps) : Matches m t qs where
  labels := related.labels
  supply := by rw [related.supply, (perm.map Running.due).sum_eq]
  fresh q mem := related.fresh q (perm.mem_iff.mpr mem)
  settled a none := related.settled a fun q mem => none q (perm.mem_iff.mp mem)

theorem supply_cons (related : Matches m t (p :: rest)) :
    m.totalSupply = t.totalSupply + (p.due + (rest.map Running.due).sum) := by
  rw [related.supply, List.map_cons, List.sum_cons]

/-- Nothing has taken effect. -/
theorem concurrently (t : Token) (calls : List Call) :
    Matches t t (calls.map .calling) where
  labels := ⟨rfl, rfl⟩
  supply := by
    have none : ((calls.map Running.calling).map Running.due).sum = 0 := by
      induction calls with
      | nil => rfl
      | cons c calls ih => simpa [Running.due] using ih
    rw [none, add_zero]
  fresh p mem := by
    obtain ⟨c, -, rfl⟩ := List.mem_map.mp mem
    trivial
  settled _ _ := rfl

/-- What a call has read is not changed by writes to accounts that it does not hold. -/
theorem fresh_of_frame (fresh : p.Fresh m t)
    (frame : ∀ a ∈ p.holds, m'.balances.get a = m.balances.get a ∧
      t'.balances.get a = t.balances.get a) : p.Fresh m' t' := by
  cases p with
  | adding address initialBalance =>
      have same := frame address List.mem_cons_self
      exact ⟨fresh.1, same.2.trans fresh.2⟩
  | minting address amount currentBalance =>
      have same := frame address List.mem_cons_self
      exact same.2.trans fresh
  | burning address amount currentBalance =>
      have same := frame address List.mem_cons_self
      exact ⟨same.2.trans fresh.1, fresh.2⟩
  | transferring sender recipient amount fromBalance =>
      have same := frame sender List.mem_cons_self
      exact ⟨same.2.trans fresh.1, fresh.2⟩
  | crediting sender recipient amount fromBalance toBalance =>
      have same := frame sender List.mem_cons_self
      have same' := frame recipient (List.mem_cons_of_mem _ List.mem_cons_self)
      exact ⟨⟨same.2.trans fresh.1.1, fresh.1.2⟩, same'.2.trans fresh.2⟩
  | debiting sender recipient amount fromBalance =>
      have same := frame sender List.mem_cons_self
      exact ⟨same.1.trans fresh.1, fresh.2.1, fun other => same.2.trans (fresh.2.2 other)⟩
  | calling c => trivial
  | counting change => trivial
  | returned => trivial

/-- An account that a call holds is as the calls before it have left it, unless the call has a debit
to come there. -/
theorem get_of_holds (related : Matches m t (p :: rest))
    (alone : ∀ q ∈ rest, ∀ a ∈ p.holds, a ∉ q.holds) {a : GoString} (held : a ∈ p.holds)
    (whole : a ∉ p.debits) : m.balances.get a = t.balances.get a := by
  refine related.settled a fun q mem => ?_
  rcases List.mem_cons.mp mem with rfl | mem
  · exact whole
  · exact fun debited => alone q mem a held (q.debits_subset_holds debited)

/-- A step that changes only accounts held by its call leaves the other calls as they are. -/
theorem step (related : Matches m t (p :: rest))
    (alone : ∀ q ∈ rest, ∀ a ∈ p.holds, a ∉ q.holds)
    (outside : ∀ a ∉ p.holds, m'.balances.get a = m.balances.get a ∧
      t'.balances.get a = t.balances.get a)
    (labels : m'.name = t'.name ∧ m'.shorthand = t'.shorthand)
    (supply : m'.totalSupply = t'.totalSupply + (p'.due + (rest.map Running.due).sum))
    (fresh : p'.Fresh m' t')
    (inside : ∀ a ∈ p.holds, a ∉ p'.debits → m'.balances.get a = t'.balances.get a) :
    Matches m' t' (p' :: rest) where
  labels := labels
  supply := by rw [supply, List.map_cons, List.sum_cons]
  fresh q mem := by
    rcases List.mem_cons.mp mem with rfl | mem
    · exact fresh
    · refine fresh_of_frame (related.fresh q (List.mem_cons_of_mem _ mem)) fun a held => ?_
      exact outside a fun held' => alone q mem a held' held
  settled a none := by
    by_cases held : a ∈ p.holds
    · exact inside a held (none p' List.mem_cons_self)
    · obtain ⟨same, same'⟩ := outside a held
      rw [same, same']
      refine related.settled a fun q mem => ?_
      rcases List.mem_cons.mp mem with rfl | mem
      · exact fun debited => held (q.debits_subset_holds debited)
      · exact none q (List.mem_cons_of_mem _ mem)

/-- An account that is not in the middle of a transfer to itself. -/
theorem below_of_clean (related : Matches m t ps) {a : GoString} (clean : ∀ q ∈ ps, a ∉ q.halfway) :
    Below m t a := by
  by_cases whole : ∀ q ∈ ps, a ∉ q.debits
  · exact .inl (related.settled a whole)
  · push Not at whole
    obtain ⟨q, mem, debited⟩ := whole
    have fresh := related.fresh q mem
    have other := clean q mem
    cases q with
    | debiting sender recipient amount fromBalance =>
        obtain rfl := List.mem_singleton.mp debited
        obtain ⟨after, covered, before⟩ := fresh
        have apart : a ≠ recipient := by
          rintro rfl
          simp [Running.halfway] at other
        refine .inr ⟨fromBalance, fromBalance - amount, before apart, after, ?_⟩
        exact UInt64.sub_le (UInt64.not_lt.mp covered)
    | _ => cases debited

end Matches

/-! ## Steps -/

section Steps

variable {m t : Token} {rest : List Running}

theorem act_calling_token (t : Token) (c : Call) : (act t (.calling c)).1 = t := by
  cases c <;> simp only [act] <;> repeat' first | rfl | split

/-- A call that goes on after its first access has read something fresh, and nothing is due. -/
theorem fresh_act_calling (m t : Token) (c : Call) :
    (act t (.calling c)).2.Fresh m t ∧ (act t (.calling c)).2.due = 0 := by
  cases c with
  | addAddress address initialBalance =>
      simp only [act]
      split
      · exact ⟨trivial, rfl⟩
      · next few =>
        split
        · exact ⟨trivial, rfl⟩
        · next absent => exact ⟨⟨few, by simpa [FinMap.exists?] using absent⟩, rfl⟩
  | mint address amount => exact ⟨rfl, rfl⟩
  | burn address amount =>
      simp only [act]
      split
      · exact ⟨trivial, rfl⟩
      · next found =>
        split
        · exact ⟨trivial, rfl⟩
        · next covered => exact ⟨⟨found, covered⟩, rfl⟩
  | transfer sender recipient amount =>
      simp only [act]
      split
      · exact ⟨trivial, rfl⟩
      · next found =>
        split
        · exact ⟨trivial, rfl⟩
        · next covered => exact ⟨⟨found, covered⟩, rfl⟩

/-- A balance that does not cover an amount does not after a debit either. -/
theorem Below.uncovered {a : GoString} {amount : UInt64} (below : Below m t a)
    (uncovered : ∀ balance, t.balances.get a = some balance → balance < amount) :
    ∀ lower, m.balances.get a = some lower → lower < amount := by
  intro lower found
  rcases below with same | ⟨balance, lower', before, after, le⟩
  · exact uncovered lower (same.symm.trans found)
  · rw [found] at after
    cases after
    exact UInt64.lt_of_le_of_lt le (uncovered balance before)

/-- A call that fails at its first access fails on the sequential token. -/
theorem call_eq_self_of_refused {c : Call}
    (below : ∀ a ∈ (Running.calling c).reads, Below m t a)
    (refused : (act t (.calling c)).2 = .returned) : m.call c = m := by
  cases c with
  | addAddress address initialBalance =>
      simp only [act] at refused
      split at refused
      · next many => simp only [call, addAddress, many, if_true]; rfl
      · next few =>
        split at refused
        · next present =>
          have there : m.balances.exists? address = true := by
            have entry := below address (by simp [Running.reads, few])
            simp only [FinMap.exists?] at present ⊢
            rcases entry with same | ⟨_, _, _, after, _⟩
            · rwa [same]
            · rw [after]
              rfl
          simp only [call, addAddress, few, if_false, there, if_true]
          rfl
        · cases refused
  | mint address amount => cases refused
  | burn address amount =>
      have poor : ∀ lower, m.balances.get address = some lower → lower < amount := by
        refine (below address List.mem_cons_self).uncovered fun balance found => ?_
        simp only [act, found] at refused
        split at refused
        · assumption
        · cases refused
      simp only [call, burn]
      split
      · rfl
      · next found =>
        rw [if_pos (poor _ found)]
        rfl
  | transfer sender recipient amount =>
      have poor : ∀ lower, m.balances.get sender = some lower → lower < amount := by
        refine (below sender List.mem_cons_self).uncovered fun balance found => ?_
        simp only [act, found] at refused
        split at refused
        · assumption
        · cases refused
      simp only [call, transfer]
      split
      · rfl
      · next found =>
        rw [if_pos (poor _ found)]
        rfl

/-- The first access of a call. -/
theorem matches_calling {c : Call} (related : Matches m t (.calling c :: rest))
    (clean : ∀ a ∈ (Running.calling c).reads, ∀ q ∈ rest, a ∉ q.halfway) :
    Matches (Run.run call m (effect t (.calling c))) (act t (.calling c)).1
      ((act t (.calling c)).2 :: rest) := by
  obtain ⟨fresh, due⟩ := fresh_act_calling m t c
  have unchanged : Run.run call m (effect t (.calling c)) = m := by
    have below : ∀ a ∈ (Running.calling c).reads, Below m t a := by
      refine fun a read => related.below_of_clean fun q mem => ?_
      rcases List.mem_cons.mp mem with rfl | mem
      · exact List.not_mem_nil
      · exact clean a read q mem
    simp only [effect]
    split
    · next refused => exact call_eq_self_of_refused below refused
    · rfl
  rw [unchanged, act_calling_token]
  refine related.step (fun q _ a held => by cases held) (fun a _ => ⟨rfl, rfl⟩) related.labels ?_
    fresh fun a held => by cases held
  rw [due]
  exact related.supply_cons

section Alone

variable {address sender recipient : GoString} {amount fromBalance : UInt64}

/-- Writes of a call on both tokens to one account, which has the same entry on both before. -/
theorem matches_write {p p' : Running} {balance supply supply' : UInt64}
    (related : Matches m t (p :: rest)) (alone : ∀ q ∈ rest, ∀ a ∈ p.holds, a ∉ q.holds)
    (only : p.holds = [address]) (fresh : ∀ m t, p'.Fresh m t)
    (counted : supply = supply' + (p'.due + (rest.map Running.due).sum)) :
    Matches { m with balances := m.balances.add address balance, totalSupply := supply }
      { t with balances := t.balances.add address balance, totalSupply := supply' }
      (p' :: rest) := by
  refine related.step alone (fun a outside => ?_) related.labels counted (fresh _ _)
    fun a held _ => ?_
  · rw [only, List.mem_singleton] at outside
    exact ⟨FinMap.get_add_of_ne _ _ outside, FinMap.get_add_of_ne _ _ outside⟩
  · rw [only, List.mem_singleton] at held
    subst held
    rw [FinMap.get_add_self, FinMap.get_add_self]

theorem matches_adding {initialBalance : List UInt64}
    (related : Matches m t (.adding address initialBalance :: rest))
    (alone : ∀ q ∈ rest, ∀ a ∈ (Running.adding address initialBalance).holds, a ∉ q.holds) :
    Matches (m.call (.addAddress address initialBalance)) (act t (.adding address initialBalance)).1
      ((act t (.adding address initialBalance)).2 :: rest) := by
  obtain ⟨few, absent⟩ := related.fresh _ List.mem_cons_self
  have same := related.get_of_holds alone List.mem_cons_self List.not_mem_nil
  have absent' : m.balances.exists? address = false := by
    rw [FinMap.exists?, same, absent]
    rfl
  simp only [call, addAddress, few, if_false, absent', Bool.false_eq_true, act]
  refine matches_write related alone rfl (fun _ _ => trivial) ?_
  rw [related.supply_cons]
  simp only [Running.due]
  abel

theorem matches_minting {currentBalance : Option UInt64}
    (related : Matches m t (.minting address amount currentBalance :: rest))
    (alone : ∀ q ∈ rest, ∀ a ∈ (Running.minting address amount currentBalance).holds,
      a ∉ q.holds) :
    Matches (m.call (.mint address amount)) (act t (.minting address amount currentBalance)).1
      ((act t (.minting address amount currentBalance)).2 :: rest) := by
  have read := related.fresh _ List.mem_cons_self
  have same := related.get_of_holds alone List.mem_cons_self List.not_mem_nil
  have minted : m.call (.mint address amount) =
      { m with
        balances := m.balances.add address (credited amount currentBalance)
        totalSupply := m.totalSupply + amount } := by
    have found := same.trans read
    cases currentBalance <;> simp only [call, mint, found, credited]
  rw [minted]
  refine matches_write related alone rfl (fun _ _ => trivial) ?_
  rw [related.supply_cons]
  simp only [Running.due]
  abel

theorem matches_burning {currentBalance : UInt64}
    (related : Matches m t (.burning address amount currentBalance :: rest))
    (alone : ∀ q ∈ rest, ∀ a ∈ (Running.burning address amount currentBalance).holds,
      a ∉ q.holds) :
    Matches (m.call (.burn address amount)) (act t (.burning address amount currentBalance)).1
      ((act t (.burning address amount currentBalance)).2 :: rest) := by
  obtain ⟨read, covered⟩ := related.fresh _ List.mem_cons_self
  have same := related.get_of_holds alone List.mem_cons_self List.not_mem_nil
  simp only [call, burn, same.trans read, covered, if_false, act]
  refine matches_write related alone rfl (fun _ _ => trivial) ?_
  rw [related.supply_cons]
  simp only [Running.due]
  abel

/-- The credit of a transfer: from here on the sequential token has its debit, too. -/
theorem matches_crediting {toBalance : Option UInt64}
    (related : Matches m t (.crediting sender recipient amount fromBalance toBalance :: rest))
    (alone : ∀ q ∈ rest,
      ∀ a ∈ (Running.crediting sender recipient amount fromBalance toBalance).holds,
        a ∉ q.holds) :
    Matches (m.call (.transfer sender recipient amount))
      (act t (.crediting sender recipient amount fromBalance toBalance)).1
      ((act t (.crediting sender recipient amount fromBalance toBalance)).2 :: rest) := by
  obtain ⟨⟨read, covered⟩, read'⟩ := related.fresh _ List.mem_cons_self
  have same := related.get_of_holds alone (a := sender) List.mem_cons_self List.not_mem_nil
  have same' := related.get_of_holds alone (a := recipient)
    (List.mem_cons_of_mem _ List.mem_cons_self) List.not_mem_nil
  have transferred : m.call (.transfer sender recipient amount) =
      { m with
        balances := (m.balances.add recipient (credited amount toBalance)).add sender
          (fromBalance - amount) } := by
    simp only [call, transfer, same.trans read, covered, if_false]
    have found := same'.trans read'
    cases toBalance <;> simp only [found] <;> rfl
  rw [transferred]
  refine related.step alone (fun a outside => ?_) related.labels ?_ ?_ fun a held whole => ?_
  · have apart : a ≠ sender ∧ a ≠ recipient := by simpa [Running.holds] using outside
    simp only [act, FinMap.get_add_of_ne _ _ apart.1, FinMap.get_add_of_ne _ _ apart.2, and_self]
  · exact related.supply_cons
  · refine ⟨FinMap.get_add_self _ _ _, covered, fun other => ?_⟩
    simp only [act, FinMap.get_add_of_ne _ _ other, read]
  · have other : a ≠ sender := by simpa [act, Running.debits] using whole
    have here : a = recipient := by simpa [Running.holds, other] using held
    subst here
    simp only [act, FinMap.get_add_of_ne _ _ other, FinMap.get_add_self]

theorem matches_debiting
    (related : Matches m t (.debiting sender recipient amount fromBalance :: rest))
    (alone : ∀ q ∈ rest, ∀ a ∈ (Running.debiting sender recipient amount fromBalance).holds,
      a ∉ q.holds) :
    Matches m (act t (.debiting sender recipient amount fromBalance)).1
      ((act t (.debiting sender recipient amount fromBalance)).2 :: rest) := by
  obtain ⟨after, -, -⟩ := related.fresh _ List.mem_cons_self
  refine related.step alone (fun a outside => ⟨rfl, ?_⟩) related.labels ?_ trivial
    fun a held _ => ?_
  · have apart : a ≠ sender := by simpa [Running.holds] using outside
    exact FinMap.get_add_of_ne _ _ apart
  · exact related.supply_cons
  · obtain rfl := List.mem_singleton.mp held
    exact after.trans (FinMap.get_add_self _ _ _).symm

end Alone

/-- Every access of calls that keep apart preserves the match. -/
theorem matches_act {p : Running} (related : Matches m t (p :: rest))
    (alone : ∀ q ∈ rest, ∀ a ∈ p.holds, a ∉ q.holds)
    (clean : ∀ a ∈ p.reads, ∀ q ∈ rest, a ∉ q.halfway) :
    Matches (Run.run call m (effect t p)) (act t p).1 ((act t p).2 :: rest) := by
  cases p with
  | calling c => exact matches_calling related clean
  | adding address initialBalance => exact matches_adding related alone
  | minting address amount currentBalance => exact matches_minting related alone
  | burning address amount currentBalance => exact matches_burning related alone
  | transferring sender recipient amount fromBalance =>
      have read := related.fresh _ List.mem_cons_self
      exact related.step alone (fun a _ => ⟨rfl, rfl⟩) related.labels related.supply_cons
        ⟨read, rfl⟩ fun a held _ => related.get_of_holds alone held List.not_mem_nil
  | crediting sender recipient amount fromBalance toBalance =>
      exact matches_crediting related alone
  | debiting sender recipient amount fromBalance => exact matches_debiting related alone
  | counting change =>
      refine related.step alone (fun a _ => ⟨rfl, rfl⟩) related.labels ?_ trivial
        fun a held => by cases held
      have total := related.supply_cons
      simp only [Running.due] at total
      show m.totalSupply = t.totalSupply + change + (0 + (rest.map Running.due).sum)
      rw [total]
      abel
  | returned => exact related

end Steps

/-! ## Whole schedules -/

/-- A call either fails with its first access or is as a whole still to come. -/
theorem calling_cases (t : Token) (c : Call) :
    effect t (.calling c) = [c] ∧ (act t (.calling c)).2.todo = [] ∨
      effect t (.calling c) = [] ∧ (act t (.calling c)).2.todo = [c] := by
  cases c with
  | addAddress address initialBalance =>
      by_cases many : initialBalance.length > 1
      · simp [effect, act, many, Running.todo]
      · cases present : t.balances.exists? address <;>
          simp [effect, act, many, present, Running.todo]
  | mint address amount => exact .inr ⟨rfl, rfl⟩
  | burn address amount =>
      cases found : t.balances.get address with
      | none => simp [effect, act, found, Running.todo]
      | some balance =>
          by_cases poor : balance < amount <;> simp [effect, act, found, poor, Running.todo]
  | transfer sender recipient amount =>
      cases found : t.balances.get sender with
      | none => simp [effect, act, found, Running.todo]
      | some balance =>
          by_cases poor : balance < amount <;> simp [effect, act, found, poor, Running.todo]

theorem effect_append_todo (t : Token) (p : Running) :
    (effect t p ++ (act t p).2.todo).Perm p.todo := by
  cases p with
  | calling c =>
      rcases calling_cases t c with ⟨now, later⟩ | ⟨now, later⟩
      all_goals
        rw [now, later]
        exact List.Perm.refl _
  | _ => exact List.Perm.refl _

theorem todo_calling (calls : List Call) :
    (calls.map Running.calling).flatMap Running.todo = calls := by
  induction calls with
  | nil => rfl
  | cons c calls ih =>
      rw [List.map_cons, List.flatMap_cons, ih, Running.todo, List.singleton_append]

/-- When all calls have returned, the token is the sequential one. -/
theorem eq_of_matches {m t : Token} {ps : List Running} (related : Matches m t ps)
    (all : ∀ p ∈ ps, p.isReturned = true) : m = t := by
  have returned : ∀ p ∈ ps, p = .returned := fun p mem => p.eq_returned (all p mem)
  have total : (ps.map Running.due).sum = 0 := by
    refine List.sum_eq_zero fun due mem => ?_
    obtain ⟨p, inside, rfl⟩ := List.mem_map.mp mem
    rw [returned p inside]
    rfl
  have supply : m.totalSupply = t.totalSupply := by rw [related.supply, total, add_zero]
  have balances : m.balances = t.balances := by
    refine FinMap.ext fun a => related.settled a fun p mem => ?_
    rw [returned p mem]
    exact List.not_mem_nil
  obtain ⟨name, shorthand⟩ := related.labels
  cases m
  cases t
  simp only at name shorthand supply balances
  subst name shorthand supply balances
  rfl

/-- **Interleaved calls.**  Calls of which no two ever hold an account, and none of which reads an
account in the middle of a transfer to itself, leave the token as the same calls do in some order,
one after the other. -/
theorem sequential_of_apart (t : Token) (calls : List Call) (schedule : List Nat)
    (apart : Run.Always (Interleaving.step act) Apart (concurrently t calls) schedule)
    (returned : AllReturned (interleaved t calls schedule)) :
    ∃ order, order.Perm calls ∧
      (interleaved t calls schedule).shared = Run.run call t order := by
  obtain ⟨order, perm, related⟩ := Interleaving.linearizes (R := Matches) apart
    Matches.perm (Matches.concurrently t calls)
    (fun {m s i p rest} apart acting perm related => by
      have exclusive := (perm.pairwise_iff fun held a here there => held a there here).mp apart.1
      refine matches_act related (fun q mem => (List.pairwise_cons.mp exclusive).1 q mem) ?_
      intro a read q mem
      exact apart.2 p acting a read q (perm.mem_iff.mpr (List.mem_cons_of_mem _ mem)))
    effect_append_todo
  refine ⟨order, ?_, (eq_of_matches related returned).symm⟩
  have none : (interleaved t calls schedule).running.flatMap Running.todo = [] := by
    refine List.flatMap_eq_nil_iff.mpr fun p mem => ?_
    rw [p.eq_returned (returned p mem)]
    rfl
  have all : (order ++ (interleaved t calls schedule).running.flatMap Running.todo).Perm
      ((calls.map Running.calling).flatMap Running.todo) := perm
  rwa [none, List.append_nil, todo_calling] at all

/-- A burn at the recipient of a transfer, between the transfer's two writes. -/
theorem burn_within_transfer :
    ∃ order, order.Perm [.transfer (str "addr1") (str "addr2") 4, .burn (str "addr2") 3] ∧
      (interleaved (newToken [] [] 0 |>.mint (str "addr1") 10)
        [.transfer (str "addr1") (str "addr2") 4, .burn (str "addr2") 3]
        [0, 0, 0, 1, 1, 0, 1]).shared =
        Run.run call (newToken [] [] 0 |>.mint (str "addr1") 10) order :=
  sequential_of_apart _ _ _ (by decide +kernel) (by decide +kernel)

/-- Two calls mint 10 each for one address and both read its balance before either writes: one of
the amounts is counted and in no balance, which no order of the calls does. -/
theorem concurrent_mints_lose_tokens :
    let calls : List Call := [.mint (str "addr1") 10, .mint (str "addr1") 10]
    let final :=
      interleaved (newToken (str "Namecoin Token") (str "NTC") 0) calls [0, 1, 0, 1, 0, 1]
    AllReturned final ∧ final.shared.getBalance (str "addr1") = 10 ∧ final.shared.totalSupply = 20 ∧
      ¬ ∃ order, order.Perm calls ∧
        final.shared = Run.run call (newToken (str "Namecoin Token") (str "NTC") 0) order := by
  intro calls final
  refine ⟨by decide +kernel, by decide +kernel, by decide +kernel, ?_⟩
  rintro ⟨order, perm, same⟩
  have only : order = List.replicate 2 (.mint (str "addr1") 10) := List.perm_replicate.mp perm
  have balances := congrArg (fun t => t.getBalance (str "addr1")) same
  rw [only] at balances
  revert balances
  decide +kernel

end Token

end Peerster
