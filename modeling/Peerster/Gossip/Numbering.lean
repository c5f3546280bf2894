import Peerster.Gossip.Handlers
import Peerster.Lib.Run
import Peerster.Lib.Tickets

/-!
# Numbering of broadcasts

`Broadcast` takes the lock of the sequence number, of `receivedSeq` and of `rumorDB` for one access
at a time, so calls of one node interleave between any two accesses.  Here a call is a program with
a program counter (`Progress`), one access a step, and `Calls m` is a node with `m` calls in
progress; a schedule says whose turn it is.

Two calls that read the counter before either writes it take the same number, and the second message
is dropped from the database.  What keeps this from happening is that no other call comes in between
(`Undisturbed`): then the numbers are consecutive and every message is kept.
-/

namespace Peerster.Gossip

/-- How far a call of `Broadcast` has come, with its local variables. -/
inductive Progress : Type
  | called
  | read (currentSequenceNumber : Nat)
  | wrote (currentSequenceNumber : Nat)
  | viewed (currentSequenceNumber : Nat)
  | numbered (currentSequenceNumber : Nat) (rumor : Rumor)
  | fetched (currentSequenceNumber : Nat) (rumor : Rumor) (rumorsByOrigin : Option (List Rumor))
  | returned (currentSequenceNumber : Nat) (rumor : Rumor)

/-- The next access of a call of `Broadcast`.  The last step is the end of `storeRumor` and the
start of the goroutine that sends the rumor. -/
def Node.broadcastStep (n : Node) (msg : Payload) : Progress → Node × Progress
  | .called => (n, .read n.sequenceNumber)
  | .read current => ({ n with sequenceNumber := current + 1 }, .wrote current)
  | .wrote current =>
      ({ n with receivedSeq := n.receivedSeq.add n.address (current + 1) }, .viewed current)
  | .viewed current => (n, .numbered current ⟨n.address, n.sequenceNumber, msg⟩)
  | .numbered current rumor => (n, .fetched current rumor (n.rumorDB.get rumor.origin))
  | .fetched current rumor rumorsByOrigin =>
      ({ n with
        rumorDB := insertInto n.rumorDB rumor rumorsByOrigin
        tasks := n.tasks ++ [.broadCastRoutine [rumor]] }, .returned current rumor)
  | .returned current rumor => (n, .returned current rumor)

/-! ## What a step does -/

/-- The number a call has drawn: what it has read of the counter, once it has written it. -/
def Progress.drawn : Progress → Option Nat
  | .called => none
  | .read _ => none
  | .wrote current => some current
  | .viewed current => some current
  | .numbered current _ => some current
  | .fetched current _ _ => some current
  | .returned current _ => some current

/-- The rumor a call has made. -/
def Progress.rumor : Progress → Option Rumor
  | .numbered _ rumor => some rumor
  | .fetched _ rumor _ => some rumor
  | .returned _ rumor => some rumor
  | _ => none

/-- The rumor a call has returned with. -/
def Progress.stored : Progress → Option Rumor
  | .returned _ rumor => some rumor
  | _ => none

theorem Progress.rumor_of_stored {p : Progress} {rumor : Rumor} (stored : p.stored = some rumor) :
    p.rumor = some rumor := by
  cases p with
  | returned current rumor => exact stored
  | _ => cases stored

namespace Node

/-- A step sets the counter after the number it draws, or leaves both alone. -/
theorem broadcastStep_drawn (n : Node) (msg : Payload) (p : Progress) :
    (∃ current, p = .read current ∧ (n.broadcastStep msg p).2 = .wrote current ∧
      (n.broadcastStep msg p).1.sequenceNumber = current + 1) ∨
    ((n.broadcastStep msg p).2.drawn = p.drawn ∧
      (n.broadcastStep msg p).1.sequenceNumber = n.sequenceNumber) := by
  cases p with
  | read current => exact .inl ⟨current, rfl, rfl, rfl⟩
  | _ => exact .inr ⟨rfl, rfl⟩

/-- A step makes the rumor, or leaves it alone. -/
theorem broadcastStep_rumor (n : Node) (msg : Payload) (p : Progress) :
    (∃ current, p = .viewed current ∧ (n.broadcastStep msg p).2.drawn = some current ∧
      (n.broadcastStep msg p).2.rumor = some ⟨n.address, n.sequenceNumber, msg⟩) ∨
    ((n.broadcastStep msg p).2.rumor = p.rumor ∧
      (p.rumor ≠ none → (n.broadcastStep msg p).2.drawn = p.drawn)) := by
  cases p with
  | viewed current => exact .inl ⟨current, rfl, rfl, rfl⟩
  | read current => exact .inr ⟨rfl, fun made => absurd rfl made⟩
  | _ => exact .inr ⟨rfl, fun _ => rfl⟩

/-- A step stores the rumor, or leaves the database alone. -/
theorem broadcastStep_stored (n : Node) (msg : Payload) (p : Progress) :
    (∃ current rumor rumorsByOrigin, p = .fetched current rumor rumorsByOrigin ∧
      (n.broadcastStep msg p).2.stored = some rumor ∧
      (n.broadcastStep msg p).1.rumorDB = insertInto n.rumorDB rumor rumorsByOrigin) ∨
    ((n.broadcastStep msg p).2.stored = p.stored ∧
      (n.broadcastStep msg p).1.rumorDB = n.rumorDB) := by
  cases p with
  | fetched current rumor rumorsByOrigin =>
      exact .inl ⟨current, rumor, rumorsByOrigin, rfl, rfl, rfl⟩
  | _ => exact .inr ⟨rfl, rfl⟩

@[simp] theorem broadcastStep_address (n : Node) (msg : Payload) (p : Progress) :
    (n.broadcastStep msg p).1.address = n.address := by
  cases p <;> rfl

/-- The rumors a node stores of its own. -/
def own (n : Node) : List Rumor := (n.rumorDB.get n.address).getD []

/-- The node's own rumors are in order, with numbers up to its counter. -/
structure Settled (n : Node) : Prop where
  ordered : Ordered n.own
  counted : ∀ r ∈ n.own, r.sequence ≤ n.sequenceNumber

theorem newPeer_settled (address : GoString) (ackTimeout : Nat) :
    (newPeer address ackTimeout).Settled where
  ordered := List.Pairwise.nil
  counted r mem := by cases mem

end Node

/-! ## Calls in progress -/

/-- A node with `m` calls of `Broadcast` in progress. -/
structure Calls (m : Nat) where
  node : Node
  progress : Fin m → Progress

namespace Calls

variable {m : Nat}

/-- All calls are about to start. -/
def begin (n : Node) : Calls m := ⟨n, fun _ => .called⟩

/-- The next access of call `i`. -/
def step (msgs : Fin m → Payload) (s : Calls m) (i : Fin m) : Calls m :=
  let next := s.node.broadcastStep (msgs i) (s.progress i)
  ⟨next.1, Function.update s.progress i next.2⟩

/-- A call that is not interleaved with others is `Broadcast`. -/
theorem run_alone (msgs : Fin m → Payload) {s : Calls m} {i : Fin m}
    (called : s.progress i = .called) :
    (Run.run (step msgs) s (List.replicate 6 i)).node = s.node.broadcast (msgs i) := by
  simp only [List.replicate, Run.run_cons, Run.run_nil, step, called, Function.update_self,
    Node.broadcastStep, Node.broadcast, storeRumor]

/-- What a call has read is still so when it writes, and the number it has written is still the
counter when it uses it. -/
def Undisturbed (s : Calls m) (i : Fin m) : Prop :=
  match s.progress i with
  | .read current => s.node.sequenceNumber = current
  | .wrote current => s.node.sequenceNumber = current + 1
  | .viewed current => s.node.sequenceNumber = current + 1
  | .fetched _ rumor rumorsByOrigin => s.node.rumorDB.get rumor.origin = rumorsByOrigin
  | _ => True

/-- All calls have returned. -/
def Returned (s : Calls m) : Prop := ∀ i, (s.progress i).stored.isSome

instance (s : Calls m) : Decidable (Returned s) := Fintype.decidableForallFintype

/-- The calls have made rumors with the numbers after the node's counter, each its own; each message
is stored under its number, and the node's own view is at the largest. -/
structure Numbered (msgs : Fin m → Payload) (n : Node) (s : Calls m) (number : Fin m → Nat) :
    Prop where
  carries : ∀ i, (s.progress i).stored = some ⟨n.address, number i, msgs i⟩
  distinct : Function.Injective number
  filled : ∀ k, (∃ i, number i = k) ↔ n.sequenceNumber < k ∧ k ≤ n.sequenceNumber + m
  kept : ∀ i r, (r ∈ s.node.own ∧ r.sequence = number i) ↔ r = ⟨n.address, number i, msgs i⟩
  viewed : ∀ i, (∀ j, number j ≤ number i) → s.node.receivedSeq.get n.address = some (number i)

/-! ## The invariant -/

/-- The numbers drawn so far are consecutive, and a call's rumor has the number after its own. -/
structure Draws (msgs : Fin m → Payload) (n : Node) (s : Calls m) : Prop where
  address : s.node.address = n.address
  tickets : Tickets n.sequenceNumber s.node.sequenceNumber fun i => (s.progress i).drawn
  rumor : ∀ i r, (s.progress i).rumor = some r →
    ∃ k, (s.progress i).drawn = some k ∧ r = ⟨n.address, k + 1, msgs i⟩

/-- The node's own rumors are in order, and they are old ones and those of the calls that have
returned. -/
structure Keeps (n : Node) (s : Calls m) : Prop where
  ordered : Ordered s.node.own
  origin : ∀ r ∈ s.node.own, r.sequence ≤ n.sequenceNumber ∨ ∃ i, (s.progress i).stored = some r
  kept : ∀ i r, (s.progress i).stored = some r → r ∈ s.node.own

/-- The node's own view is at the counter, unless nobody has drawn a number or a call is about to
write it. -/
def Views (n : Node) (s : Calls m) : Prop :=
  (∀ i, (s.progress i).drawn = none) ∨ (∃ i current, s.progress i = .wrote current) ∨
    s.node.receivedSeq.get n.address = some s.node.sequenceNumber

variable {msgs : Fin m → Payload} {n : Node} {s : Calls m}

/-- A field of the progress that a step leaves alone in one call, it leaves alone in all. -/
theorem field_update {α : Type} (f : Progress → α) {progress : Fin m → Progress} {i : Fin m}
    {p : Progress} (same : f p = f (progress i)) (j : Fin m) :
    f (Function.update progress i p j) = f (progress j) := by
  rw [Function.update_apply]
  split
  · next here => rw [same, here]
  · rfl

theorem Draws.step (draws : Draws msgs n s) {i : Fin m} (undisturbed : Undisturbed s i) :
    Draws msgs n (s.step msgs i) where
  address := by
    rw [← draws.address]
    exact s.node.broadcastStep_address (msgs i) (s.progress i)
  tickets := by
    rcases s.node.broadcastStep_drawn (msgs i) (s.progress i) with
      ⟨current, at', wrote, counter⟩ | ⟨drawn, counter⟩
    · have unchanged : s.node.sequenceNumber = current := by
        simpa only [Undisturbed, at'] using undisturbed
      have free : (s.progress i).drawn = none := by rw [at']; rfl
      have next := draws.tickets.draw free
      rw [unchanged, ← counter] at next
      refine cast (congrArg (Tickets _ _) (funext fun j => ?_)) next
      simp only [Calls.step, wrote, Function.update_apply]
      split <;> rfl
    · have same := field_update Progress.drawn drawn
      simp only [Calls.step, same, counter]
      exact draws.tickets
  rumor j r made := by
    by_cases here : j = i
    · subst here
      simp only [Calls.step, Function.update_self] at made ⊢
      rcases s.node.broadcastStep_rumor (msgs j) (s.progress j) with
        ⟨current, at', drawn, new⟩ | ⟨old, drawn⟩
      · have unchanged : s.node.sequenceNumber = current + 1 := by
          simpa only [Undisturbed, at'] using undisturbed
        rw [new, unchanged, draws.address] at made
        exact ⟨current, drawn, (Option.some.inj made).symm⟩
      · rw [old] at made
        rw [drawn (by rw [made]; exact Option.some_ne_none r)]
        exact draws.rumor j r made
    · simp only [Calls.step, Function.update_of_ne here] at made ⊢
      exact draws.rumor j r made

/-- The rumor about to be stored has a number that no stored one has. -/
theorem Keeps.fresh (keeps : Keeps n s) (draws : Draws msgs n s) {i : Fin m} {rumor r : Rumor}
    (made : (s.progress i).rumor = some rumor) (unstored : (s.progress i).stored = none)
    (mem : r ∈ s.node.own) : r.sequence ≠ rumor.sequence := by
  obtain ⟨k, drawn, rfl⟩ := draws.rumor i rumor made
  have bounds := draws.tickets.bounds drawn
  rcases keeps.origin r mem with old | ⟨j, stored⟩
  · dsimp only
    omega
  · obtain ⟨k', drawnJ, rfl⟩ := draws.rumor j r (Progress.rumor_of_stored stored)
    intro same
    have number : k' = k := Nat.succ.inj same
    have call : j = i := draws.tickets.unique drawnJ (by rw [number]; exact drawn)
    rw [call, unstored] at stored
    cases stored

/-- Call `i` returns, with its rumor inserted. -/
theorem Keeps.insert (keeps : Keeps n s) {s' : Calls m} {i : Fin m} {rumor : Rumor}
    (unstored : (s.progress i).stored = none) (ordered : Ordered s'.node.own)
    (mem : ∀ r, r ∈ s'.node.own ↔ r = rumor ∨ r ∈ s.node.own)
    (storedAt : ∀ j, (s'.progress j).stored =
      if j = i then some rumor else (s.progress j).stored) : Keeps n s' where
  ordered := ordered
  origin r here := by
    rcases (mem r).mp here with rfl | before
    · exact .inr ⟨i, by rw [storedAt, if_pos rfl]⟩
    · rcases keeps.origin r before with old | ⟨j, returned⟩
      · exact .inl old
      · have other : j ≠ i := by
          intro call
          rw [call, unstored] at returned
          cases returned
        exact .inr ⟨j, by rw [storedAt, if_neg other, returned]⟩
  kept j r returned := by
    rw [mem]
    rw [storedAt] at returned
    split at returned
    · exact .inl (Option.some.inj returned).symm
    · exact .inr (keeps.kept j r returned)

theorem Keeps.of_same (keeps : Keeps n s) {s' : Calls m} (own : s'.node.own = s.node.own)
    (storedAt : ∀ j, (s'.progress j).stored = (s.progress j).stored) : Keeps n s' where
  ordered := by
    rw [own]
    exact keeps.ordered
  origin r here := by
    simp only [storedAt]
    exact keeps.origin r (by rwa [own] at here)
  kept j r returned := by
    rw [own]
    exact keeps.kept j r (by rwa [storedAt] at returned)

theorem Keeps.step (keeps : Keeps n s) (draws : Draws msgs n s) {i : Fin m}
    (undisturbed : Undisturbed s i) : Keeps n (s.step msgs i) := by
  have own : (s.step msgs i).node.own =
      (((s.node.broadcastStep (msgs i) (s.progress i)).1.rumorDB).get s.node.address).getD [] := by
    simp only [Node.own, Calls.step, Node.broadcastStep_address]
  rcases s.node.broadcastStep_stored (msgs i) (s.progress i) with
    ⟨current, rumor, rumorsByOrigin, at', stored, inserted⟩ | ⟨stored, same⟩
  · have unchanged : s.node.rumorDB.get rumor.origin = rumorsByOrigin := by
      simpa only [Undisturbed, at'] using undisturbed
    have made : (s.progress i).rumor = some rumor := by rw [at']; rfl
    have unstored : (s.progress i).stored = none := by rw [at']; rfl
    have origin : rumor.origin = s.node.address := by
      obtain ⟨k, -, rfl⟩ := draws.rumor i rumor made
      exact draws.address.symm
    obtain ⟨rumors, added, ordered, mem⟩ := insertRumor_ordered keeps.ordered
      fun r => keeps.fresh draws made unstored
    have own' : (s.step msgs i).node.own = rumors := by
      rw [own, inserted, insertInto, ← unchanged, origin]
      simp only [Node.own] at added
      simp only [added, FinMap.get_add_self, Option.getD_some]
    rw [← own'] at ordered mem
    refine keeps.insert unstored ordered mem fun j => ?_
    simp only [Calls.step, Function.update_apply]
    split
    · exact stored
    · rfl
  · refine keeps.of_same ?_ (field_update Progress.stored stored)
    rw [own, same]
    rfl

theorem Views.step (views : Views n s) (address : s.node.address = n.address) {i : Fin m}
    (undisturbed : Undisturbed s i) : Views n (s.step msgs i) := by
  cases at' : s.progress i with
  | read current =>
      refine .inr (.inl ⟨i, current, ?_⟩)
      simp only [Calls.step, at', Node.broadcastStep, Function.update_self]
  | wrote current =>
      have unchanged : s.node.sequenceNumber = current + 1 := by
        simpa only [Undisturbed, at'] using undisturbed
      refine .inr (.inr ?_)
      simp only [Calls.step, at', Node.broadcastStep, address, FinMap.get_add_self, unchanged]
  | _ =>
      have notWrote : ∀ current, s.progress i ≠ .wrote current := by simp [at']
      have drawn : (s.node.broadcastStep (msgs i) (s.progress i)).2.drawn =
          (s.progress i).drawn := by rw [at']; rfl
      rcases views with none | ⟨j, current, wrote⟩ | seen
      · left
        intro j
        rw [← none j]
        exact field_update Progress.drawn drawn j
      · refine .inr (.inl ⟨j, current, ?_⟩)
        have other : j ≠ i := by
          intro call
          exact notWrote current (call ▸ wrote)
        simp only [Calls.step, Function.update_of_ne other, wrote]
      · refine .inr (.inr ?_)
        simpa only [Calls.step, at', Node.broadcastStep] using seen

/-- What holds while calls that are not disturbed go on. -/
structure Inv (msgs : Fin m → Payload) (n : Node) (s : Calls m) : Prop where
  draws : Draws msgs n s
  keeps : Keeps n s
  views : Views n s

theorem begin_inv (msgs : Fin m → Payload) {n : Node} (settled : n.Settled) :
    Inv msgs n (begin n) where
  draws := ⟨rfl, Tickets.none_held n.sequenceNumber, fun _ _ made => by cases made⟩
  keeps := ⟨settled.ordered, fun r mem => .inl (settled.counted r mem), fun _ _ stored => by
    cases stored⟩
  views := .inl fun _ => rfl

theorem Inv.step (inv : Inv msgs n s) {i : Fin m} (undisturbed : Undisturbed s i) :
    Inv msgs n (s.step msgs i) where
  draws := inv.draws.step undisturbed
  keeps := inv.keeps.step inv.draws undisturbed
  views := inv.views.step inv.draws.address undisturbed

/-- A node whose calls are not disturbed stays settled. -/
theorem Inv.settled (inv : Inv msgs n s) : s.node.Settled where
  ordered := inv.keeps.ordered
  counted r mem := by
    rcases inv.keeps.origin r mem with old | ⟨i, stored⟩
    · exact old.trans inv.draws.tickets.le
    · obtain ⟨k, drawn, rfl⟩ := inv.draws.rumor i r (Progress.rumor_of_stored stored)
      exact (inv.draws.tickets.bounds drawn).2

/-- Once all calls have returned, each has drawn a number and returned with the rumor of it. -/
theorem Draws.returned (draws : Draws msgs n s) (returned : Returned s) :
    ∃ k : Fin m → Nat, (∀ i, (s.progress i).drawn = some (k i)) ∧
      ∀ i, (s.progress i).stored = some ⟨n.address, k i + 1, msgs i⟩ := by
  have drawn : ∀ i, ∃ k, (s.progress i).drawn = some k ∧
      (s.progress i).stored = some ⟨n.address, k + 1, msgs i⟩ := by
    intro i
    obtain ⟨rumor, stored⟩ := Option.isSome_iff_exists.mp (returned i)
    obtain ⟨k, drawn, rfl⟩ := draws.rumor i rumor (Progress.rumor_of_stored stored)
    exact ⟨k, drawn, stored⟩
  choose k drawn stored using drawn
  exact ⟨k, drawn, stored⟩

/-- Once all calls have drawn a number, the counter has moved by as many, and the numbers after
those drawn are all up to it. -/
theorem Draws.filled (draws : Draws msgs n s) {k : Fin m → Nat}
    (drawn : ∀ i, (s.progress i).drawn = some (k i)) :
    s.node.sequenceNumber = n.sequenceNumber + m ∧
      ∀ l, (∃ i, k i + 1 = l) ↔ n.sequenceNumber < l ∧ l ≤ n.sequenceNumber + m := by
  have counter : s.node.sequenceNumber = n.sequenceNumber + m := by
    have next := draws.tickets.next_eq drawn
    rwa [Fintype.card_fin] at next
  refine ⟨counter, fun l => ?_⟩
  constructor
  · intro ⟨i, same⟩
    have bounds := draws.tickets.bounds (drawn i)
    omega
  · intro ⟨above, upTo⟩
    obtain ⟨i, held⟩ := (draws.tickets.filled (l - 1)).mpr (by omega)
    have same : k i = l - 1 := Option.some.inj ((drawn i).symm.trans held)
    exact ⟨i, by omega⟩

/-- Once all calls have returned, the node's own view is at the counter. -/
theorem Views.returned (views : Views n s) {i : Fin m} {k : Nat}
    (drawn : (s.progress i).drawn = some k) (returned : Returned s) :
    s.node.receivedSeq.get n.address = some s.node.sequenceNumber := by
  rcases views with none | ⟨j, current, wrote⟩ | seen
  · cases (none i).symm.trans drawn
  · have done := returned j
    rw [wrote] at done
    cases done
  · exact seen

theorem Inv.numbered (inv : Inv msgs n s) (returned : Returned s) :
    ∃ number, Numbered msgs n s number := by
  obtain ⟨k, drawn, stored⟩ := inv.draws.returned returned
  obtain ⟨counter, filled⟩ := inv.draws.filled drawn
  refine ⟨fun i => k i + 1, stored, fun a b same => ?_, filled, fun i r => ?_, fun i largest => ?_⟩
  · refine inv.draws.tickets.unique (drawn a) ?_
    rw [drawn b, Nat.succ.inj same]
  · have mem := inv.keeps.kept i _ (stored i)
    constructor
    · intro ⟨here, same⟩
      exact eq_of_sequence_eq inv.keeps.ordered here mem same
    · intro same
      rw [same]
      exact ⟨mem, rfl⟩
  · -- the largest number is that of the call that moved the counter last
    obtain ⟨last, lastNumber⟩ := (filled (n.sequenceNumber + m)).mpr ⟨by
      have pos := i.pos
      omega, le_rfl⟩
    have number : k i + 1 = s.node.sequenceNumber := by
      have le := largest last
      have bound := ((filled (k i + 1)).mp ⟨i, rfl⟩).2
      omega
    rw [inv.views.returned (drawn i) returned, number]

/-- Calls that are not disturbed: after all have returned, their rumors have the next numbers, every
message is stored under its own, and the node's own view is at the largest. -/
theorem numbered_of_undisturbed (msgs : Fin m → Payload) {n : Node} (settled : n.Settled)
    {schedule : List (Fin m)}
    (undisturbed : Run.Always (step msgs) Undisturbed (begin n) schedule)
    (returned : Returned (Run.run (step msgs) (begin n) schedule)) :
    ∃ number, Numbered msgs n (Run.run (step msgs) (begin n) schedule) number :=
  (undisturbed.run_invariant (begin_inv msgs settled)
    fun _ _ inv here => inv.step here).numbered returned

/-- Two messages that a node broadcasts at the same time. -/
def twoMessages : Fin 2 → Payload
  | 0 => .other (str "chat") [97]
  | 1 => .other (str "chat") [98]

/-- The second call draws its number while the first is about to store its rumor. -/
theorem numbered_overlapping :
    ∃ number, Numbered twoMessages (newPeer (str "127.0.0.1:1") 0)
      (Run.run (step twoMessages) (begin (newPeer (str "127.0.0.1:1") 0))
        [0, 0, 0, 0, 1, 1, 0, 0, 1, 1, 1, 1]) number :=
  numbered_of_undisturbed twoMessages (Node.newPeer_settled _ _)
    ⟨trivial, rfl, rfl, rfl, trivial, rfl, trivial, rfl, rfl, rfl, trivial, rfl, trivial⟩
    (by decide)

/-- Two calls that read the counter before either writes it make rumors with one number, and the
second message is not stored. -/
theorem same_number_drops_message :
    let n := newPeer (str "127.0.0.1:1") 0
    let s := Run.run (step twoMessages) (begin n) [0, 1, 0, 0, 0, 0, 0, 1, 1, 1, 1, 1]
    n.Settled ∧ Returned s ∧ s.node.own.length = 1 ∧
      ¬ ∃ number, Numbered twoMessages n s number := by
  refine ⟨Node.newPeer_settled _ _, by decide, by decide +kernel, fun ⟨number, numbered⟩ => ?_⟩
  have first := numbered.carries 0
  have second := numbered.carries 1
  have same : number 0 = number 1 := by
    have one : number 0 = 1 := (congrArg Rumor.sequence (Option.some.inj first)).symm
    have one' : number 1 = 1 := (congrArg Rumor.sequence (Option.some.inj second)).symm
    rw [one, one']
  exact absurd (numbered.distinct same) (by decide)

end Calls

end Peerster.Gossip
