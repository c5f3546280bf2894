import Peerster.Gossip.Exchange

/-!
# The verdict of `compareViews`

Two views are compared origin by origin, an origin without an entry counting as 0.  The flags that
the two loops of `compareViews` raise say whether some origin is behind on one side or the other, so
the case returned is the pointwise comparison of the views, whatever the order of the iterations.
-/

namespace Peerster.Gossip.Node

/-- The node's view counts from 1, and the database has the rumors of every origin in the view, in
order, at least as far as the view goes. -/
structure Tracked (n : Node) : Prop where
  positive : ∀ origin last, n.receivedSeq.get origin = some last → 1 ≤ last
  stored : ∀ origin last, n.receivedSeq.get origin = some last → ∃ rumors k,
    n.rumorDB.get origin = some rumors ∧ rumors.map Rumor.sequence = List.range' 1 k ∧ last ≤ k

variable {n : Node} {view : StatusMessage}

/-! ## The two flags -/

/-- An iteration of the first loop raises `newRemote` where the remote view is ahead. -/
theorem compareRemote_newRemote (n : Node) (view : StatusMessage) (found : Comparison)
    (origin : GoString) :
    (n.compareRemote view found origin).newRemote =
      (found.newRemote || decide (n.lastSeq origin < (view.get origin).getD 0)) := by
  unfold compareRemote lastSeq
  dsimp only
  split
  · next new =>
    rw [new.1]
    simp [new.2]
  · split
    · next more => simp [more]
    · next notMore =>
      have behind : ¬ (n.receivedSeq.get origin).getD 0 < (view.get origin).getD 0 := notMore
      split <;> simp [behind]

/-- The second loop leaves `newRemote` alone. -/
theorem compareLocal_newRemote (n : Node) (view : StatusMessage) (found : Comparison)
    (origin : GoString) : (n.compareLocal view found origin).newRemote = found.newRemote := by
  unfold compareLocal
  split <;> rfl

theorem foldl_compareRemote_newRemote (n : Node) (view : StatusMessage) (origins : List GoString)
    (found : Comparison) :
    (origins.foldl (n.compareRemote view) found).newRemote = true ↔
      found.newRemote = true ∨ ∃ origin ∈ origins, n.lastSeq origin < (view.get origin).getD 0 := by
  induction origins generalizing found with
  | nil => simp
  | cons o origins ih =>
      rw [List.foldl_cons, ih, compareRemote_newRemote]
      simp [or_assoc]

theorem foldl_compareLocal_newRemote (n : Node) (view : StatusMessage) (origins : List GoString)
    (found : Comparison) :
    (origins.foldl (n.compareLocal view) found).newRemote = found.newRemote := by
  induction origins generalizing found with
  | nil => rfl
  | cons o origins ih => rw [List.foldl_cons, ih, compareLocal_newRemote]

/-- Both loops together raise `newRemote` when the remote view is ahead with some origin. -/
theorem compare_newRemote (n : Node) (c : StatusChoice) (view : StatusMessage) :
    ((c.viewOrder.list n.receivedSeq).foldl (n.compareLocal view)
        ((c.viewOrder.list view).foldl (n.compareRemote view) ⟨false, false, .empty⟩)).newRemote =
          true ↔
      ∃ origin, n.lastSeq origin < (view.get origin).getD 0 := by
  rw [foldl_compareLocal_newRemote, foldl_compareRemote_newRemote]
  constructor
  · rintro (impossible | ⟨origin, -, ahead⟩)
    · cases impossible
    · exact ⟨origin, ahead⟩
  · rintro ⟨origin, ahead⟩
    refine .inr ⟨origin, ?_, ahead⟩
    rw [c.viewOrder.mem, FinMap.mem_keys]
    cases known : view.get origin with
    | none =>
        rw [known] at ahead
        exact (Nat.not_lt_zero _ ahead).elim
    | some remoteSeq => rfl

/-! ## What a tracked node lists -/

/-- A number that the remote view lacks is at least 1, so an origin it has no entry for counts as
one it is behind with. -/
theorem Tracked.ahead_iff (tracked : n.Tracked) (view : StatusMessage) (origin : GoString) :
    n.Ahead view origin ↔ (view.get origin).getD 0 < n.lastSeq origin := by
  constructor
  · rintro (behind | ⟨unknown, known⟩)
    · exact behind
    · obtain ⟨last, entry⟩ := Option.ne_none_iff_exists'.mp known
      have atLeast := tracked.positive origin last entry
      rw [unknown]
      unfold lastSeq
      rw [entry]
      exact atLeast
  · exact .inl

theorem rumorsBetween_sublist (startSeq endSeq : Nat) (rumors : List Rumor) :
    (rumorsBetween startSeq endSeq rumors).Sublist rumors := by
  induction rumors with
  | nil => exact .slnil
  | cons rumor rumors ih =>
      unfold rumorsBetween
      split
      · exact ih.cons rumor
      · split
        · exact List.nil_sublist _
        · exact ih.cons_cons rumor

/-- The rumors listed for an origin that the remote view is behind with: those of the database from
the number after the remote one up to the node's own. -/
theorem Tracked.missingRumors (tracked : n.Tracked) {origin : GoString}
    (behind : (view.get origin).getD 0 < n.lastSeq origin) :
    (n.missingRumors view origin).Sublist ((n.rumorDB.get origin).getD []) ∧
      (n.missingRumors view origin).map Rumor.sequence =
        List.range' ((view.get origin).getD 0 + 1)
          (n.lastSeq origin - (view.get origin).getD 0) := by
  have known : n.receivedSeq.get origin ≠ none := by
    intro unknown
    unfold lastSeq at behind
    rw [unknown] at behind
    exact Nat.not_lt_zero _ behind
  obtain ⟨last, entry⟩ := Option.ne_none_iff_exists'.mp known
  obtain ⟨rumors, k, database, numbers, reaches⟩ := tracked.stored origin last entry
  have own : n.lastSeq origin = last := by
    unfold lastSeq
    rw [entry]
    rfl
  unfold Node.missingRumors getMissingRumors
  rw [database]
  refine ⟨rumorsBetween_sublist _ _ rumors, ?_⟩
  have first : max 1 ((view.get origin).getD 0 + 1) = (view.get origin).getD 0 + 1 := by omega
  have length : min (1 + k) (n.lastSeq origin + 1) - ((view.get origin).getD 0 + 1) =
      n.lastSeq origin - (view.get origin).getD 0 := by omega
  rw [← first, ← length, ← first]
  exact rumorsBetween_range' _ _ numbers

/-! ## The four cases -/

open Classical in
/-- The flags decide the case. -/
theorem compareViews_case (n : Node) (c : StatusChoice) (view : StatusMessage) :
    (n.compareViews c view).1 =
      if ∃ origin, n.lastSeq origin < (view.get origin).getD 0 then
        if ∃ origin, n.Ahead view origin then 3 else 1
      else if ∃ origin, n.Ahead view origin then 2 else 4 := by
  have remote := n.compare_newRemote c view
  have own := (n.compare_spec c view).1
  unfold compareViews
  dsimp only at own ⊢
  split
  · next newRemote newLocal => rw [if_pos (remote.mp newRemote), if_pos (own.mp newLocal)]
  · next newRemote newLocal =>
    rw [newLocal] at own
    rw [if_pos (remote.mp newRemote), if_neg fun ahead => Bool.noConfusion (own.mpr ahead)]
  · next newRemote newLocal =>
    rw [newRemote] at remote
    rw [if_neg fun ahead => Bool.noConfusion (remote.mpr ahead), if_pos (own.mp newLocal)]
  · next newRemote newLocal =>
    rw [newRemote] at remote
    rw [newLocal] at own
    rw [if_neg fun ahead => Bool.noConfusion (remote.mpr ahead),
      if_neg fun ahead => Bool.noConfusion (own.mpr ahead)]

/-- The case is the pointwise comparison of the two views, and the rumors returned are those between
the remote view and the node's own, for exactly the origins that the remote view is behind with. -/
theorem compareViews_pointwise (n : Node) (tracked : n.Tracked) (c : StatusChoice)
    (view : StatusMessage) :
    ((n.compareViews c view).1 = 4 ↔
        ∀ origin, n.lastSeq origin = (view.get origin).getD 0) ∧
      ((n.compareViews c view).1 = 1 ↔
        (∀ origin, n.lastSeq origin ≤ (view.get origin).getD 0) ∧
          ∃ origin, n.lastSeq origin ≠ (view.get origin).getD 0) ∧
      ((n.compareViews c view).1 = 2 ↔
        (∀ origin, (view.get origin).getD 0 ≤ n.lastSeq origin) ∧
          ∃ origin, n.lastSeq origin ≠ (view.get origin).getD 0) ∧
      ((n.compareViews c view).1 = 3 ↔
        ¬ (∀ origin, n.lastSeq origin ≤ (view.get origin).getD 0) ∧
          ¬ ∀ origin, (view.get origin).getD 0 ≤ n.lastSeq origin) ∧
      ((n.compareViews c view).1 = 2 ∨ (n.compareViews c view).1 = 3 → ∀ origin,
        if (view.get origin).getD 0 < n.lastSeq origin then
          ∃ rumors, (n.compareViews c view).2.get origin = some rumors ∧
            rumors.Sublist ((n.rumorDB.get origin).getD []) ∧
            rumors.map Rumor.sequence = List.range' ((view.get origin).getD 0 + 1)
              (n.lastSeq origin - (view.get origin).getD 0)
        else (n.compareViews c view).2.get origin = none) := by
  have verdict := n.compareViews_case c view
  have equal : (∀ origin, n.lastSeq origin = (view.get origin).getD 0) ↔
      (∀ origin, n.lastSeq origin ≤ (view.get origin).getD 0) ∧
        ∀ origin, (view.get origin).getD 0 ≤ n.lastSeq origin :=
    ⟨fun same => ⟨fun origin => (same origin).le, fun origin => (same origin).ge⟩,
      fun both origin => le_antisymm (both.1 origin) (both.2 origin)⟩
  have differ : (∃ origin, n.lastSeq origin ≠ (view.get origin).getD 0) ↔
      ¬ ∀ origin, n.lastSeq origin = (view.get origin).getD 0 := not_forall.symm
  have upToDate : (∀ origin, n.lastSeq origin ≤ (view.get origin).getD 0) ↔
      ¬ ∃ origin, n.Ahead view origin := by
    simp only [tracked.ahead_iff, not_exists, not_lt]
  have covered : (∀ origin, (view.get origin).getD 0 ≤ n.lastSeq origin) ↔
      ¬ ∃ origin, n.lastSeq origin < (view.get origin).getD 0 := by
    simp only [not_exists, not_lt]
  rw [differ, equal, upToDate, covered, verdict]
  refine ⟨?_, ?_, ?_, ?_, fun _ origin => ?_⟩
  · split_ifs <;> simp [*]
  · split_ifs <;> simp [*]
  · split_ifs <;> simp [*]
  · split_ifs <;> simp [*]
  · rw [compareViews_get]
    by_cases behind : (view.get origin).getD 0 < n.lastSeq origin
    · rw [if_pos behind, if_pos ((tracked.ahead_iff view origin).mpr behind)]
      exact ⟨_, rfl, tracked.missingRumors behind⟩
    · rw [if_neg behind, if_neg fun ahead => behind ((tracked.ahead_iff view origin).mp ahead)]

theorem sampleOrigin_known {origin : GoString} {last : Nat}
    (known : sampleOrigin.receivedSeq.get origin = some last) :
    origin = str "127.0.0.1:1" ∧ last = 1 := by
  have own : origin = str "127.0.0.1:1" := by
    by_contra other
    unfold sampleOrigin broadcast at known
    dsimp only at known
    rw [FinMap.get_add_of_ne _ _ (k := (newPeer (str "127.0.0.1:1") 0).address) other] at known
    cases known
  subst own
  have first : sampleOrigin.receivedSeq.get (str "127.0.0.1:1") = some 1 := by decide +kernel
  exact ⟨rfl, Option.some.inj (known.symm.trans first)⟩

theorem sampleOrigin_tracked : sampleOrigin.Tracked where
  positive origin last known := by
    obtain ⟨-, rfl⟩ := sampleOrigin_known known
    exact le_rfl
  stored origin last known := by
    obtain ⟨rfl, rfl⟩ := sampleOrigin_known known
    have numbers : sampleOrigin.storedNumbers (str "127.0.0.1:1") = List.range' 1 1 := by
      decide +kernel
    unfold storedNumbers at numbers
    cases database : sampleOrigin.rumorDB.get (str "127.0.0.1:1") with
    | none =>
        rw [database] at numbers
        cases numbers
    | some rumors =>
        rw [database] at numbers
        exact ⟨rumors, 1, rfl, numbers, le_rfl⟩

/-- Against an empty view the node that has broadcast one message is the one with new rumors. -/
theorem compareViews_first_rumor :
    (sampleOrigin.compareViews (sampleLayer none).status .empty).1 = 2 := by
  refine (compareViews_pointwise sampleOrigin sampleOrigin_tracked (sampleLayer none).status
    .empty).2.2.1.mpr ⟨fun origin => Nat.zero_le _, str "127.0.0.1:1", ?_⟩
  decide +kernel

end Peerster.Gossip.Node
