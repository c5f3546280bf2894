import Peerster.Gossip.Handlers

/-!
# Views compared

What `compareViews` finds, whatever order it goes through the two views in: the rumors it lists for
an origin are those of the database after the remote number and up to the local one, for the origins
the remote node is behind with.
-/

namespace Peerster.Gossip.Node

/-- The last number of an origin that the node has seen. -/
def lastSeq (n : Node) (origin : GoString) : Nat := (n.receivedSeq.get origin).getD 0

/-- The remote view is behind the node's own with an origin. -/
def Ahead (n : Node) (view : StatusMessage) (origin : GoString) : Prop :=
  (view.get origin).getD 0 < n.lastSeq origin ∨
    view.get origin = none ∧ n.receivedSeq.get origin ≠ none

instance (n : Node) (view : StatusMessage) (origin : GoString) :
    Decidable (n.Ahead view origin) :=
  inferInstanceAs (Decidable (_ ∨ _ ∧ _))

/-- The rumors of an origin between the remote view and the node's own. -/
def missingRumors (n : Node) (view : StatusMessage) (origin : GoString) : List Rumor :=
  getMissingRumors n.rumorDB origin ((view.get origin).getD 0 + 1) (n.lastSeq origin)

section Compare

variable {n : Node} {view : StatusMessage}

/-- What a loop of `compareViews` has collected after the origins of a list: the rumors `missing` of
those with the property `B`. -/
theorem foldl_collects {compare : Comparison → GoString → Comparison} {B : GoString → Prop}
    [DecidablePred B] {missing : GoString → List Rumor}
    (hit : ∀ found origin, B origin → (compare found origin).newLocal = true ∧
      (compare found origin).missing = found.missing.add origin (missing origin))
    (skip : ∀ found origin, ¬ B origin → (compare found origin).newLocal = found.newLocal ∧
      (compare found origin).missing = found.missing)
    (origins : List GoString) (found : Comparison) :
    ((origins.foldl compare found).newLocal = true ↔
        found.newLocal = true ∨ ∃ origin ∈ origins, B origin) ∧
      ∀ origin, (origins.foldl compare found).missing.get origin =
        if origin ∈ origins ∧ B origin then some (missing origin)
        else found.missing.get origin := by
  induction origins generalizing found with
  | nil => simp
  | cons o origins ih =>
      obtain ⟨flag, collected⟩ := ih (compare found o)
      rw [List.foldl_cons]
      by_cases here : B o
      · obtain ⟨newLocal, added⟩ := hit found o here
        refine ⟨?_, fun origin => ?_⟩
        · rw [flag, newLocal]
          simp [here]
        · rw [collected, added, FinMap.get_add]
          by_cases same : origin = o
          · subst same
            simp [here]
          · simp [same]
      · obtain ⟨newLocal, unchanged⟩ := skip found o here
        refine ⟨?_, fun origin => ?_⟩
        · rw [flag, newLocal]
          simp [here]
        · rw [collected, unchanged]
          by_cases same : origin = o
          · subst same
            simp [here]
          · simp [same]

/-- An iteration of the first loop lists the rumors of an origin that the remote node knows and is
behind with. -/
theorem compareRemote_spec (n : Node) (view : StatusMessage) (found : Comparison)
    (origin : GoString) :
    ((view.get origin).getD 0 < n.lastSeq origin →
      (n.compareRemote view found origin).newLocal = true ∧
        (n.compareRemote view found origin).missing =
          found.missing.add origin (n.missingRumors view origin)) ∧
    (¬ (view.get origin).getD 0 < n.lastSeq origin →
      (n.compareRemote view found origin).newLocal = found.newLocal ∧
        (n.compareRemote view found origin).missing = found.missing) := by
  unfold compareRemote missingRumors lastSeq
  dsimp only
  split
  · next new =>
    rw [new.1]
    simp
  · split
    · next more => exact ⟨fun behind => by omega, fun _ => ⟨rfl, rfl⟩⟩
    · split
      · next behind => exact ⟨fun _ => ⟨rfl, rfl⟩, fun not => (not behind).elim⟩
      · next behind => exact ⟨fun lt => (behind lt).elim, fun _ => ⟨rfl, rfl⟩⟩

/-- An iteration of the second loop lists the rumors of an origin that the remote node does not
know. -/
theorem compareLocal_spec (n : Node) (view : StatusMessage) (found : Comparison)
    (origin : GoString) :
    (view.get origin = none →
      (n.compareLocal view found origin).newLocal = true ∧
        (n.compareLocal view found origin).missing =
          found.missing.add origin (n.missingRumors view origin)) ∧
    (¬ view.get origin = none →
      (n.compareLocal view found origin).newLocal = found.newLocal ∧
        (n.compareLocal view found origin).missing = found.missing) := by
  unfold compareLocal
  split
  · next unknown =>
    refine ⟨fun _ => ⟨rfl, ?_⟩, fun known => (known unknown).elim⟩
    unfold missingRumors lastSeq
    rw [unknown]
    rfl
  · next known => exact ⟨fun unknown => (known unknown).elim, fun _ => ⟨rfl, rfl⟩⟩

/-- An origin without a remote number is caught by the second loop, any other one by the first. -/
theorem ahead_iff_caught (n : Node) (c : StatusChoice) (view : StatusMessage) (origin : GoString) :
    n.Ahead view origin ↔
      (origin ∈ c.viewOrder.list view ∧ (view.get origin).getD 0 < n.lastSeq origin) ∨
        (origin ∈ c.viewOrder.list n.receivedSeq ∧ view.get origin = none) := by
  rw [c.viewOrder.mem, c.viewOrder.mem, FinMap.mem_keys, FinMap.mem_keys]
  unfold Ahead lastSeq
  cases view.get origin with
  | some remoteSeq => simp
  | none => cases n.receivedSeq.get origin with
    | some localSeq => simp
    | none => simp

/-- Both loops together. -/
theorem compare_spec (n : Node) (c : StatusChoice) (view : StatusMessage) :
    let remote := (c.viewOrder.list view).foldl (n.compareRemote view) ⟨false, false, .empty⟩
    let found := (c.viewOrder.list n.receivedSeq).foldl (n.compareLocal view) remote
    (found.newLocal = true ↔ ∃ origin, n.Ahead view origin) ∧
      ∀ origin, found.missing.get origin =
        if n.Ahead view origin then some (n.missingRumors view origin) else none := by
  intro remote found
  obtain ⟨flag, collected⟩ := foldl_collects
    (fun found origin => (n.compareRemote_spec view found origin).1)
    (fun found origin => (n.compareRemote_spec view found origin).2)
    (c.viewOrder.list view) ⟨false, false, .empty⟩
  obtain ⟨flag', collected'⟩ := foldl_collects
    (fun found origin => (n.compareLocal_spec view found origin).1)
    (fun found origin => (n.compareLocal_spec view found origin).2)
    (c.viewOrder.list n.receivedSeq) remote
  have either := n.ahead_iff_caught c view
  refine ⟨?_, fun origin => ?_⟩
  · rw [flag', flag]
    constructor
    · rintro ((impossible | ⟨origin, mem, behind⟩) | ⟨origin, mem, unknown⟩)
      · cases impossible
      · exact ⟨origin, (either origin).mpr (.inl ⟨mem, behind⟩)⟩
      · exact ⟨origin, (either origin).mpr (.inr ⟨mem, unknown⟩)⟩
    · rintro ⟨origin, ahead⟩
      rcases (either origin).mp ahead with ⟨mem, behind⟩ | ⟨mem, unknown⟩
      · exact .inl (.inr ⟨origin, mem, behind⟩)
      · exact .inr ⟨origin, mem, unknown⟩
  · rw [collected', collected]
    split
    · next unknown => rw [if_pos ((either origin).mpr (.inr unknown))]
    · next known =>
      split
      · next behind => rw [if_pos ((either origin).mpr (.inl behind))]
      · next upToDate =>
        rw [if_neg]
        · rfl
        · intro ahead
          rcases (either origin).mp ahead with behind | unknown
          · exact upToDate behind
          · exact known unknown

/-- The rumors that `compareViews` returns for an origin. -/
theorem compareViews_get (n : Node) (c : StatusChoice) (view : StatusMessage) (origin : GoString) :
    (n.compareViews c view).2.get origin =
      if n.Ahead view origin then some (n.missingRumors view origin) else none := by
  obtain ⟨flag, collected⟩ := n.compare_spec c view
  unfold compareViews
  dsimp only at flag collected ⊢
  have nothing : ¬ (∃ origin, n.Ahead view origin) → ∀ origin, FinMap.empty.get origin =
      if n.Ahead view origin then some (n.missingRumors view origin) else none := by
    intro upToDate origin
    rw [if_neg fun ahead => upToDate ⟨origin, ahead⟩]
    rfl
  split
  · exact collected origin
  · next newLocal =>
    rw [newLocal] at flag
    exact nothing (fun ahead => Bool.noConfusion (flag.mpr ahead)) origin
  · exact collected origin
  · next newLocal =>
    rw [newLocal] at flag
    exact nothing (fun ahead => Bool.noConfusion (flag.mpr ahead)) origin

/-! ## What is sent -/

/-- Encoding and sending either fails or hands over the node's own packet. -/
theorem transmit_packet {c : SendChoice} {dest : GoString} {msg : Message} {pkt : Packet}
    (sent : n.transmit c dest msg = some pkt) : pkt = n.packet c dest msg := by
  unfold transmit at sent
  split at sent
  · exact (Option.some.inj sent).symm
  · cases sent

/-- The packets carry the node's view to the addresses they are sent to. -/
def SendsStatus (n : Node) (sent : List Sent) : Prop :=
  ∀ p ∈ sent, ∃ c, p.2 = n.packet c p.1 (.payload (.status n.receivedSeq))

theorem sendsStatus_nil (n : Node) : n.SendsStatus [] := by
  intro p mem
  cases mem

theorem sendStatusMessage_sends (n : Node) (c : SendChoice) (dest : GoString) :
    n.SendsStatus (n.sendStatusMessage c dest) := by
  unfold sendStatusMessage
  split
  · exact n.sendsStatus_nil
  · next pkt sent =>
    intro p mem
    rw [List.mem_singleton.mp mem]
    exact ⟨c, transmit_packet sent⟩

theorem continueMongering_sends (n : Node) (c : StatusChoice) (source : GoString) :
    n.SendsStatus (n.continueMongering c source) := by
  unfold continueMongering
  split
  · split
    · exact n.sendsStatus_nil
    · exact n.sendStatusMessage_sends _ _
  · exact n.sendsStatus_nil

/-- Missing rumors go out in one packet of the node's own, or not at all. -/
theorem sendMissingRumors_sends (n : Node) (c : StatusChoice) (source : GoString)
    (missing : FinMap GoString (List Rumor)) :
    n.sendMissingRumors c source missing = [] ∨
      n.sendMissingRumors c source missing = [(source, n.packet c.missing source
        (.rumors (FinMap.values c.missingOrder missing).flatten))] := by
  unfold sendMissingRumors
  split
  · exact .inl rfl
  · next rumor rumors listed =>
    split
    · exact .inl rfl
    · next pkt sent =>
      right
      rw [transmit_packet sent, listed]

/-- Handling a status sends statuses, and then the rumors that `compareViews` returns. -/
theorem handleStatusMessage_sends (n : Node) (c : StatusChoice) (header : Header)
    (view : StatusMessage) :
    ∃ statuses, n.SendsStatus statuses ∧ n.handleStatusMessage c header view =
      statuses ++ n.sendMissingRumors c header.source (n.compareViews c view).2 := by
  have nothing : n.sendMissingRumors c header.source .empty = [] := by
    have none : FinMap.values c.missingOrder .empty = [] :=
      List.eq_nil_iff_forall_not_mem.mpr fun rumors mem => by
        obtain ⟨origin, found⟩ := FinMap.mem_values.mp mem
        cases found
    unfold sendMissingRumors
    rw [none]
    rfl
  unfold handleStatusMessage
  cases found : n.compareViews c view with
  | mk case missing =>
      unfold compareViews at found
      dsimp only at found
      split at found
      · obtain ⟨rfl, rfl⟩ := Prod.mk.inj found
        exact ⟨_, n.sendStatusMessage_sends c.status header.source, rfl⟩
      · obtain ⟨rfl, rfl⟩ := Prod.mk.inj found
        refine ⟨_, n.sendStatusMessage_sends c.status header.source, ?_⟩
        rw [nothing, List.append_nil]
        rfl
      · obtain ⟨rfl, rfl⟩ := Prod.mk.inj found
        exact ⟨[], n.sendsStatus_nil, rfl⟩
      · obtain ⟨rfl, rfl⟩ := Prod.mk.inj found
        refine ⟨_, n.continueMongering_sends c header.source, ?_⟩
        rw [nothing, List.append_nil]
        rfl

end Compare

end Peerster.Gossip.Node
