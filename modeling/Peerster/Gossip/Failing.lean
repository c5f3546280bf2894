import Peerster.Gossip.Exchange

/-!
# A rumor whose message fails

`processRumorMessage` stores a rumor before it processes the embedded message, and `handleRumor`
returns at the first message that fails.  So the failing rumor stays in the database, and the rumors
after it in the same packet are dropped.  Nothing else goes wrong: the failing rumor does no harm
exactly when it was in the database already, and no rumor after it was the next one of another
origin (`unharmed_iff`).
-/

namespace Peerster.Gossip

namespace Entry

theorem last_le_foldl_take (rumors : List Rumor) (e : Entry) :
    e.last.getD 0 ≤ (rumors.foldl take e).last.getD 0 := by
  induction rumors generalizing e with
  | nil => exact le_rfl
  | cons rumor rumors ih =>
      have later := ih (e.take rumor)
      rw [List.foldl_cons]
      by_cases next : rumor.sequence = e.last.getD 0 + 1
      · rw [take_next next] at later ⊢
        rw [Option.getD_some] at later
        omega
      · rw [take_skip next] at later ⊢
        exact later

/-- Taking rumors changes an entry exactly when one of them is the next. -/
theorem foldl_take_eq_self_iff {rumors : List Rumor} {e : Entry} :
    rumors.foldl take e = e ↔ ∀ r ∈ rumors, r.sequence ≠ e.last.getD 0 + 1 := by
  induction rumors with
  | nil => simp
  | cons rumor rumors ih =>
      rw [List.foldl_cons]
      by_cases next : rumor.sequence = e.last.getD 0 + 1
      · constructor
        · intro same
          have grows := last_le_foldl_take rumors (e.take rumor)
          rw [same, take_next next, Option.getD_some] at grows
          omega
        · intro none
          exact (none rumor List.mem_cons_self next).elim
      · rw [take_skip next, ih, List.forall_mem_cons]
        exact ⟨fun rest => ⟨next, rest⟩, fun all => all.2⟩

end Entry

theorem length_insertRumor {rumors rumors' : List Rumor} {rumor : Rumor}
    (inserted : insertRumor rumors rumor = some rumors') : rumors'.length = rumors.length + 1 := by
  unfold insertRumor at inserted
  dsimp only at inserted
  split at inserted
  · cases inserted
  · cases inserted
    rw [List.length_append, List.length_cons, List.length_take, List.length_drop]
    omega

/-- Storing a rumor leaves the stored rumors alone exactly when its number is found. -/
theorem insertRumor_or_eq_self_iff {stored : Option (List Rumor)} {rumor : Rumor} :
    (insertRumor (stored.getD []) rumor).or stored = stored ↔
      insertRumor (stored.getD []) rumor = none := by
  constructor
  · intro same
    cases inserted : insertRumor (stored.getD []) rumor with
    | none => rfl
    | some rumors =>
        have longer := length_insertRumor inserted
        rw [inserted, Option.some_or] at same
        rw [← same, Option.getD_some] at longer
        omega
  · intro found
    rw [found, Option.none_or]

theorem ofOrigin_append (origin : GoString) (before after : List Rumor) :
    ofOrigin origin (before ++ after) = ofOrigin origin before ++ ofOrigin origin after :=
  List.filter_append before after

namespace Node

/-- A message whose first part is handled without failures goes on with the rest. -/
theorem rumorLoop_append {c : RumorChoice} {header : Header} {before : List Rumor} {i : Nat}
    {n : Node} (succeeds : ∀ j, i ≤ j → j < i + before.length → c.SucceedsAt j)
    (rest : List Rumor) :
    (rumorLoop c header i n (before ++ rest)).1.node =
      (rumorLoop c header (i + before.length) (rumorLoop c header i n before).1.node
        rest).1.node := by
  induction before generalizing i n with
  | nil => rfl
  | cons rumor before ih =>
      rw [List.length_cons] at succeeds ⊢
      have here : c.SucceedsAt i := succeeds i le_rfl (by omega)
      have later : ∀ j, i + 1 ≤ j → j < i + 1 + before.length → c.SucceedsAt j := by
        intro j lower upper
        exact succeeds j (by omega) (by omega)
      have index : i + (before.length + 1) = i + 1 + before.length := by omega
      rw [index, List.cons_append]
      by_cases next : rumor.sequence = n.lastSeq rumor.origin + 1
      · rw [(rumorLoop_accept header here next (before ++ rest)).1,
          (rumorLoop_accept header here next before).1]
        exact ih later
      · rw [rumorLoop_skip next, rumorLoop_skip next]
        exact ih later

/-- The entry of an origin after the rumors of a message, each taken if it is the next. -/
def entryAfter (n : Node) (rumors : List Rumor) (origin : GoString) : Entry :=
  (ofOrigin origin rumors).foldl Entry.take (n.entry origin)

/-- A property of the rumors of other origins, origin by origin. -/
theorem forall_mem_iff_ofOrigin {P : GoString → Rumor → Prop} {own : GoString}
    {rumors : List Rumor} :
    (∀ r ∈ rumors, r.origin ≠ own → P r.origin r) ↔
      ∀ origin, origin ≠ own → ∀ r ∈ ofOrigin origin rumors, P origin r := by
  constructor
  · intro all origin other r mem
    obtain ⟨listed, here⟩ := List.mem_filter.mp mem
    have same := of_decide_eq_true here
    subst same
    exact all r listed other
  · intro all r listed other
    exact all r.origin other r (List.mem_filter.mpr ⟨listed, decide_eq_true rfl⟩)

/-- The loop returns at a rumor whose message fails, which has been stored. -/
theorem rumorLoop_fails {n : Node} {c : RumorChoice} {header : Header} {rumor : Rumor} {i : Nat}
    (next : rumor.sequence = n.lastSeq rumor.origin + 1)
    (fails : (n.processRumorMessage (c.embedded i) header rumor).err ≠ none) (rumors : List Rumor) :
    (rumorLoop c header i n (rumor :: rumors)).1.node =
      (n.processRumorMessage (c.embedded i) header rumor).node := by
  unfold lastSeq at next
  unfold rumorLoop
  rw [if_pos next]
  dsimp only
  cases err : (n.processRumorMessage (c.embedded i) header rumor).err with
  | none => exact (fails err).elim
  | some err => rfl

section Failing

variable {n : Node} {c c' : RumorChoice} {header : Header} {rumor : Rumor}
  {before after : List Rumor}

/-- The failing rumor does no harm: what is known of its origin is what was known when it was tried,
and what is known of any other origin is what would be known without it. -/
def Unharmed (n : Node) (c c' : RumorChoice) (header : Header) (before : List Rumor) (rumor : Rumor)
    (after : List Rumor) : Prop :=
  let failed := (n.handleRumor c header (before ++ rumor :: after)).node
  let without := (n.handleRumor c' header (before ++ after)).node
  failed.entry rumor.origin = (rumorLoop c header 0 n before).1.node.entry rumor.origin ∧
    ∀ origin, origin ≠ rumor.origin → failed.entry origin = without.entry origin

/-- **One failing rumor.**  The embedded message of one rumor of a message fails, the rumor being
the next of its origin when it is tried.  It does no harm exactly when its number was in the
database already, and no rumor after it is the next of another origin. -/
theorem unharmed_iff (earlier : ∀ i < before.length, c.SucceedsAt i)
    (succeeds : ∀ i, c'.SucceedsAt i)
    (expected : rumor.sequence = (n.entryAfter before rumor.origin).last.getD 0 + 1)
    (fails : ((rumorLoop c header 0 n before).1.node.processRumorMessage
      (c.embedded before.length) header rumor).err ≠ none) :
    n.Unharmed c c' header before rumor after ↔
      insertRumor ((n.entryAfter before rumor.origin).stored.getD []) rumor = none ∧
        ∀ r ∈ after, r.origin ≠ rumor.origin →
          r.sequence ≠ (n.entryAfter before r.origin).last.getD 0 + 1 := by
  have first : ∀ j, 0 ≤ j → j < 0 + before.length → c.SucceedsAt j := by
    intro j _ upper
    exact earlier j (by omega)
  have reached : ∀ origin, (rumorLoop c header 0 n before).1.node.entry origin =
      n.entryAfter before origin := fun origin => (rumorLoop_entry first origin).1
  have next : rumor.sequence =
      (rumorLoop c header 0 n before).1.node.lastSeq rumor.origin + 1 := by
    rw [lastSeq_eq_entry, reached]
    exact expected
  have failed : ∀ origin, (n.handleRumor c header (before ++ rumor :: after)).node.entry origin =
      if origin = rumor.origin then
        ⟨(n.entryAfter before origin).last,
          (insertRumor ((n.entryAfter before origin).stored.getD []) rumor).or
            (n.entryAfter before origin).stored⟩
      else n.entryAfter before origin := by
    intro origin
    rw [handleRumor_node_entry, rumorLoop_append first, Nat.zero_add, rumorLoop_fails next fails,
      entry_processRumorMessage, ← reached]
    rfl
  have without : ∀ origin, (n.handleRumor c' header (before ++ after)).node.entry origin =
      (ofOrigin origin after).foldl Entry.take (n.entryAfter before origin) := by
    intro origin
    rw [handleRumor_entry succeeds, ofOrigin_append, List.foldl_append]
    rfl
  unfold Unharmed
  dsimp only
  rw [reached, failed, if_pos rfl, forall_mem_iff_ofOrigin
    (P := fun origin r => r.sequence ≠ (n.entryAfter before origin).last.getD 0 + 1)]
  apply and_congr
  · rw [← insertRumor_or_eq_self_iff]
    exact ⟨fun same => congrArg Entry.stored same, fun same => Entry.ext rfl same⟩
  · refine forall_congr' fun origin => forall_congr' fun other => ?_
    rw [failed, if_neg other, without, ← Entry.foldl_take_eq_self_iff]
    exact eq_comm

end Failing

/-! ## A failing rumor -/

/-- Only the message of the rumor at place `k` fails. -/
def failsAt (k : Nat) : RumorChoice where
  embedded i _ := sampleLayer (if i = k then some (str "failed") else none)
  ack _ := sampleSend
  neighbor := sampleNeighbor
  forward := sampleSend

/-- The header of a packet from `127.0.0.1:2` to `127.0.0.1:1`. -/
def sampleHeader : Header :=
  ⟨str "packet", str "127.0.0.1:2", str "127.0.0.1:2", str "127.0.0.1:1"⟩

/-- The first rumor of an origin. -/
def firstOf (origin : String) : Rumor := ⟨str origin, 1, .other (str "chat") []⟩

/-- The first rumor of `127.0.0.1:2` fails; it stays in the database, and the first rumor of
`127.0.0.1:3` in the same message is dropped. -/
theorem failing_rumor_harms :
    ¬ (newPeer (str "127.0.0.1:1") 0).Unharmed (failsAt 0) (samplePacket none).rumor sampleHeader []
      (firstOf "127.0.0.1:2") [firstOf "127.0.0.1:3"] := by
  rintro ⟨-, others⟩
  have same := congrArg Entry.last (others (str "127.0.0.1:3") (by decide +kernel))
  revert same
  decide +kernel

/-- When it fails again, nothing is different: its number is in the database, the first rumor of
`127.0.0.1:3` comes before it, and of the rumors after it one comes for the second time and the
other one too early. -/
theorem unharmed_retried_rumor :
    ((newPeer (str "127.0.0.1:1") 0).handleRumor (failsAt 0) sampleHeader
      [firstOf "127.0.0.1:2"]).node.Unharmed (failsAt 1) (samplePacket none).rumor sampleHeader
      [firstOf "127.0.0.1:3"] (firstOf "127.0.0.1:2")
      [firstOf "127.0.0.1:3", ⟨str "127.0.0.1:4", 2, .other (str "chat") []⟩] := by
  have earlier : ∀ i < [firstOf "127.0.0.1:3"].length, (failsAt 1).SucceedsAt i := by
    intro i inside
    rw [Nat.lt_one_iff.mp inside]
    exact ⟨fun _ => ⟨rfl, rfl, rfl⟩, rfl, rfl⟩
  exact (unharmed_iff earlier (fun _ => ⟨fun _ => ⟨rfl, rfl, rfl⟩, rfl, rfl⟩) (by decide +kernel)
    (by decide +kernel)).mpr ⟨by decide +kernel, by decide +kernel⟩

end Node

end Peerster.Gossip
