import Peerster.Bytes
import Peerster.Lib.BinarySearch
import Peerster.Lib.FinMap

/-!
# Rumors and the rumor database

The messages of `types/messaging_def.go` that gossip is made of, packets, and the functions of
`peer/impl/rumor.go` that read and write the rumor database.  A rumor embeds a message; here the
embedded messages are those that carry no rumors themselves (`Payload`).  Sequence numbers are
`uint` in the source and are counted here without bound.
-/

namespace Peerster.Gossip

/-- `StatusMessage`: the last sequence number known of every origin. -/
abbrev StatusMessage := FinMap GoString Nat

/-- A message that carries no rumors: a status, an acknowledgement with a status, a private message
for some recipients, or a message of another type.  When a message is encoded again the text of its
payload may change, not what it means: payloads are taken up to that. -/
inductive Payload : Type
  | status (view : StatusMessage)
  | ack (ackedPacketID : GoString) (view : StatusMessage)
  | privateMessage (recipients : List GoString) (msg : Payload)
  | other (type : GoString) (content : Bytes)

/-- `Rumor`. -/
structure Rumor where
  origin : GoString
  sequence : Nat
  msg : Payload

/-- A `transport.Message`, decoded. -/
inductive Message : Type
  | rumors (rumors : List Rumor)
  | payload (msg : Payload)

/-- The rumors a message carries. -/
def Message.carried : Message → List Rumor
  | .rumors list => list
  | .payload _ => []

/-- `transport.Header`, without the timestamp, which nothing reads. -/
structure Header where
  packetID : GoString
  source : GoString
  relayedBy : GoString
  destination : GoString
  deriving DecidableEq

/-- `transport.Packet`. -/
structure Packet where
  header : Header
  msg : Message

/-- The rumor database: the rumors of every origin. -/
abbrev RumorDB := FinMap GoString (List Rumor)

/-! ## Storing and reading rumors -/

/-- The index that `storeRumor` finds by `sort.Search`. -/
def rumorIndex (rumorsByOrigin : List Rumor) (sequence : Nat) : Nat :=
  BinarySearch.search rumorsByOrigin.length fun i =>
    match rumorsByOrigin[i]? with
    | some rumor => decide (rumor.sequence ≥ sequence)
    | none => false

/-- The insertion of `storeRumor`; `none` when a rumor with this number is found. -/
def insertRumor (rumorsByOrigin : List Rumor) (rumor : Rumor) : Option (List Rumor) :=
  let index := rumorIndex rumorsByOrigin rumor.sequence
  if (rumorsByOrigin[index]?).any fun found => found.sequence = rumor.sequence then none
  else some (rumorsByOrigin.take index ++ rumor :: rumorsByOrigin.drop index)

/-- The rest of `storeRumor`, with the rumors it has read from the database. -/
def insertInto (rumorDB : RumorDB) (rumor : Rumor) (rumorsByOrigin : Option (List Rumor)) :
    RumorDB :=
  match insertRumor (rumorsByOrigin.getD []) rumor with
  | none => rumorDB
  | some rumors => rumorDB.add rumor.origin rumors

/-- `storeRumor`. -/
def storeRumor (rumorDB : RumorDB) (rumor : Rumor) : RumorDB :=
  insertInto rumorDB rumor (rumorDB.get rumor.origin)

/-- The loop of `getMissingRumors`, which skips below `startSeq` and stops above `endSeq`. -/
def rumorsBetween (startSeq endSeq : Nat) : List Rumor → List Rumor
  | [] => []
  | rumor :: rumors =>
      if rumor.sequence < startSeq then rumorsBetween startSeq endSeq rumors
      else if rumor.sequence > endSeq then []
      else rumor :: rumorsBetween startSeq endSeq rumors

/-- `getMissingRumors`. -/
def getMissingRumors (rumorDB : RumorDB) (origin : GoString) (startSeq endSeq : Nat) : List Rumor :=
  match rumorDB.get origin with
  | none => []
  | some rumorsByOrigin => rumorsBetween startSeq endSeq rumorsByOrigin

/-! ## What the database holds -/

/-- Every rumor of the database is under its own origin and has the property `P`. -/
def Holds (P : Rumor → Prop) (rumorDB : RumorDB) : Prop :=
  ∀ origin rumors, rumorDB.get origin = some rumors → ∀ r ∈ rumors, r.origin = origin ∧ P r

theorem mem_of_mem_insertRumor {rumors rumors' : List Rumor} {rumor r : Rumor}
    (inserted : insertRumor rumors rumor = some rumors') (mem : r ∈ rumors') :
    r = rumor ∨ r ∈ rumors := by
  unfold insertRumor at inserted
  dsimp only at inserted
  split at inserted
  · cases inserted
  · cases inserted
    rcases List.mem_append.mp mem with front | back
    · exact .inr (List.mem_of_mem_take front)
    · rcases List.mem_cons.mp back with new | back
      · exact .inl new
      · exact .inr (List.mem_of_mem_drop back)

/-- Storing a rumor adds at most that rumor. -/
theorem Holds.storeRumor {P : Rumor → Prop} {rumorDB : RumorDB} {rumor : Rumor}
    (holds : Holds P rumorDB) (authentic : P rumor) : Holds P (storeRumor rumorDB rumor) := by
  unfold Gossip.storeRumor insertInto
  split
  · exact holds
  · next rumors' inserted =>
    intro origin rumors found r mem
    rw [FinMap.get_add] at found
    split at found
    · next same =>
      cases found
      rcases mem_of_mem_insertRumor inserted mem with rfl | before
      · exact ⟨same.symm, authentic⟩
      · cases earlier : rumorDB.get rumor.origin with
        | none =>
            rw [earlier] at before
            cases before
        | some rumorsByOrigin =>
            rw [earlier] at before
            rw [same]
            exact holds rumor.origin rumorsByOrigin earlier r before
    · exact holds origin rumors found r mem

theorem mem_of_mem_rumorsBetween {startSeq endSeq : Nat} {rumors : List Rumor} {r : Rumor}
    (mem : r ∈ rumorsBetween startSeq endSeq rumors) : r ∈ rumors := by
  induction rumors with
  | nil => cases mem
  | cons rumor rumors ih =>
      unfold rumorsBetween at mem
      split at mem
      · exact List.mem_cons_of_mem rumor (ih mem)
      · split at mem
        · cases mem
        · rcases List.mem_cons.mp mem with rfl | later
          · exact List.mem_cons_self
          · exact List.mem_cons_of_mem rumor (ih later)

/-- Missing rumors come from the database. -/
theorem Holds.getMissingRumors {P : Rumor → Prop} {rumorDB : RumorDB} {origin : GoString}
    {startSeq endSeq : Nat} {r : Rumor} (holds : Holds P rumorDB)
    (mem : r ∈ getMissingRumors rumorDB origin startSeq endSeq) : P r := by
  unfold Gossip.getMissingRumors at mem
  split at mem
  · cases mem
  · next rumors found =>
    exact (holds origin rumors found r (mem_of_mem_rumorsBetween mem)).2

/-! ## Ordered rumors -/

/-- The rumors are in strictly increasing order of their numbers. -/
def Ordered (rumors : List Rumor) : Prop := rumors.Pairwise fun a b => a.sequence < b.sequence

/-- Two rumors of an ordered list with one number are one rumor. -/
theorem eq_of_sequence_eq {rumors : List Rumor} (ordered : Ordered rumors) {r r' : Rumor}
    (mem : r ∈ rumors) (mem' : r' ∈ rumors) (same : r.sequence = r'.sequence) : r = r' := by
  obtain ⟨a, inside, rfl⟩ := List.getElem_of_mem mem
  obtain ⟨b, inside', rfl⟩ := List.getElem_of_mem mem'
  have increasing := List.pairwise_iff_getElem.mp ordered
  rcases Nat.lt_trichotomy a b with lt | rfl | lt
  · have step := increasing a b inside inside' lt
    omega
  · rfl
  · have step := increasing b a inside' inside lt
    omega

/-- In an ordered list the index found separates smaller numbers from larger ones. -/
theorem rumorIndex_spec {rumors : List Rumor} (ordered : Ordered rumors) (sequence : Nat) :
    (∀ r ∈ rumors.take (rumorIndex rumors sequence), r.sequence < sequence) ∧
      ∀ r ∈ rumors.drop (rumorIndex rumors sequence), sequence ≤ r.sequence := by
  have increasing := List.pairwise_iff_getElem.mp ordered
  have spec := BinarySearch.search_spec (n := rumors.length) (f := fun i =>
    match rumors[i]? with
    | some rumor => decide (rumor.sequence ≥ sequence)
    | none => false) (by
      intro a b le inside holds
      have insideA : a < rumors.length := by omega
      simp only [List.getElem?_eq_getElem insideA, List.getElem?_eq_getElem inside,
        decide_eq_true_eq] at holds ⊢
      rcases Nat.lt_or_eq_of_le le with lt | rfl
      · have step := increasing a b insideA inside lt
        omega
      · exact holds)
  constructor
  · intro r mem
    obtain ⟨a, inside, rfl⟩ := List.mem_take_iff_getElem.mp mem
    have insideA : a < rumors.length := by omega
    have fails := spec.1 a (by unfold rumorIndex at inside; omega)
    simp only [List.getElem?_eq_getElem insideA, decide_eq_false_iff_not] at fails
    omega
  · intro r mem
    obtain ⟨a, inside, rfl⟩ := List.mem_drop_iff_getElem.mp mem
    have insideA : rumorIndex rumors sequence + a < rumors.length := by omega
    have holds := spec.2 (rumorIndex rumors sequence + a) (by unfold rumorIndex; omega) insideA
    simp only [List.getElem?_eq_getElem insideA, decide_eq_true_eq] at holds
    exact holds

/-- A rumor with a new number is inserted, and the list stays ordered. -/
theorem insertRumor_ordered {rumors : List Rumor} {rumor : Rumor} (ordered : Ordered rumors)
    (fresh : ∀ r ∈ rumors, r.sequence ≠ rumor.sequence) :
    ∃ rumors', insertRumor rumors rumor = some rumors' ∧ Ordered rumors' ∧
      ∀ r, r ∈ rumors' ↔ r = rumor ∨ r ∈ rumors := by
  obtain ⟨below, above⟩ := rumorIndex_spec ordered rumor.sequence
  have absent : ¬ ((rumors[rumorIndex rumors rumor.sequence]?).any
      fun found => found.sequence = rumor.sequence) = true := by
    cases hit : rumors[rumorIndex rumors rumor.sequence]? with
    | none => exact Bool.false_ne_true
    | some found =>
        intro same
        exact fresh found (List.mem_of_getElem? hit) (of_decide_eq_true same)
  refine ⟨_, if_neg absent, ?_, fun r => ?_⟩
  · have strictly : ∀ r ∈ rumors.drop (rumorIndex rumors rumor.sequence),
        rumor.sequence < r.sequence := by
      intro r mem
      have ne := fresh r (List.mem_of_mem_drop mem)
      have le := above r mem
      omega
    refine List.pairwise_append.mpr ⟨ordered.take, ?_, ?_⟩
    · exact List.pairwise_cons.mpr ⟨strictly, ordered.drop⟩
    · intro a front b back
      rcases List.mem_cons.mp back with rfl | back
      · exact below a front
      · exact (below a front).trans (strictly b back)
  · rw [List.mem_append, List.mem_cons]
    conv_rhs => rw [← List.take_append_drop (rumorIndex rumors rumor.sequence) rumors,
      List.mem_append]
    exact or_left_comm

/-- A rumor with a number above all others goes to the end. -/
theorem insertRumor_append {rumors : List Rumor} {rumor : Rumor} (ordered : Ordered rumors)
    (largest : ∀ r ∈ rumors, r.sequence < rumor.sequence) :
    insertRumor rumors rumor = some (rumors ++ [rumor]) := by
  have above := (rumorIndex_spec ordered rumor.sequence).2
  have beyond : rumors.length ≤ rumorIndex rumors rumor.sequence := by
    rw [← List.drop_eq_nil_iff, List.eq_nil_iff_forall_not_mem]
    intro r mem
    have le := above r mem
    have lt := largest r (List.mem_of_mem_drop mem)
    omega
  unfold insertRumor
  simp only [List.getElem?_eq_none beyond, Option.any_none, Bool.false_eq_true, if_false,
    List.take_of_length_le beyond, List.drop_of_length_le beyond]

/-- A rumor whose number is present is not inserted. -/
theorem insertRumor_present {rumors : List Rumor} {rumor r : Rumor} (ordered : Ordered rumors)
    (mem : r ∈ rumors) (same : r.sequence = rumor.sequence) :
    insertRumor rumors rumor = none := by
  obtain ⟨below, above⟩ := rumorIndex_spec ordered rumor.sequence
  -- the rumor found is at the index or after it, so the one at the index is no later
  have later : r ∈ rumors.drop (rumorIndex rumors rumor.sequence) := by
    rw [← List.take_append_drop (rumorIndex rumors rumor.sequence) rumors] at mem
    rcases List.mem_append.mp mem with front | back
    · have lt := below r front
      omega
    · exact back
  have inside : rumorIndex rumors rumor.sequence < rumors.length := by
    by_contra beyond
    rw [List.drop_of_length_le (by omega)] at later
    cases later
  rw [List.drop_eq_getElem_cons inside] at later above
  have found : rumors[rumorIndex rumors rumor.sequence].sequence = rumor.sequence := by
    have ge := above _ List.mem_cons_self
    rcases List.mem_cons.mp later with rfl | after
    · exact same
    · have increasing := ordered.drop (i := rumorIndex rumors rumor.sequence)
      rw [List.drop_eq_getElem_cons inside] at increasing
      have lt := (List.pairwise_cons.mp increasing).1 r after
      omega
  unfold insertRumor
  simp [List.getElem?_eq_getElem inside, found]

end Peerster.Gossip
