import Peerster.Gossip.Rumor
import Peerster.Lib.Slices

/-!
# The stored rumors of an origin

`storeRumor` of `peer/impl/rumor.go` with its slice as the source handles it: found by binary
search, grown by an empty rumor, shifted by an overlapping copy, and assigned to.  It does what
`Gossip.storeRumor` does (`InPlace.storeRumor_eq`), and in whatever order the rumors of an origin
are stored, they end up sorted, each number with the first rumor that had it
(`InPlace.storeAll_sorted`).
-/

namespace Peerster.Gossip

/-! ## In place -/

theorem rumorIndex_le (rumorsByOrigin : List Rumor) (sequence : Nat) :
    rumorIndex rumorsByOrigin sequence ≤ rumorsByOrigin.length :=
  BinarySearch.search_le _ _

namespace InPlace

/-- `storeRumor`; `blank` is `types.Rumor{}`. -/
def storeRumor (blank : Rumor) (rumorDB : RumorDB) (rumor : Rumor) : RumorDB :=
  let rumorsByOrigin := (rumorDB.get rumor.origin).getD []
  let index := rumorIndex rumorsByOrigin rumor.sequence
  if (rumorsByOrigin[index]?).any fun found => found.sequence = rumor.sequence then rumorDB
  else rumorDB.add rumor.origin (Slices.insertShifted blank rumorsByOrigin index rumor)

theorem storeRumor_eq (blank : Rumor) (rumorDB : RumorDB) (rumor : Rumor) :
    storeRumor blank rumorDB rumor = Gossip.storeRumor rumorDB rumor := by
  unfold storeRumor Gossip.storeRumor insertInto insertRumor
  dsimp only
  rw [Slices.insertShifted_eq (rumorIndex_le _ _)]
  by_cases there : (((rumorDB.get rumor.origin).getD [])[rumorIndex
      ((rumorDB.get rumor.origin).getD []) rumor.sequence]?).any
        fun found => found.sequence = rumor.sequence
  · rw [if_pos there, if_pos there]
  · rw [if_neg there, if_neg there]

/-- Stores rumors one after the other in an empty database. -/
def storeAll (blank : Rumor) (rs : List Rumor) : RumorDB :=
  rs.foldl (storeRumor blank) FinMap.empty

end InPlace

/-! ## Sorted sets of rumors -/

/-- Ordered lists with the same rumors are the same. -/
theorem eq_of_ordered {rumors rumors' : List Rumor} (ordered : Ordered rumors)
    (ordered' : Ordered rumors') (same : ∀ r, r ∈ rumors ↔ r ∈ rumors') : rumors = rumors' := by
  have nodup {l : List Rumor} (increasing : Ordered l) : l.Nodup :=
    increasing.imp fun lt eq => by
      rw [eq] at lt
      exact lt.false
  have perm := (List.perm_ext_iff_of_nodup (nodup ordered) (nodup ordered')).mpr same
  exact perm.eq_of_pairwise (fun _ _ _ _ lt gt => (lt.asymm gt).elim) ordered ordered'

/-- The first of some rumors that has a number. -/
def firstOf (rs : List Rumor) (sequence : Nat) : Option Rumor :=
  rs.find? fun r => r.sequence = sequence

theorem sequence_of_firstOf {rs : List Rumor} {sequence : Nat} {r : Rumor}
    (found : firstOf rs sequence = some r) : r.sequence = sequence := by
  unfold firstOf at found
  have holds := List.find?_some found
  exact of_decide_eq_true holds

theorem firstOf_concat (rs : List Rumor) (rumor : Rumor) (sequence : Nat) :
    firstOf (rs ++ [rumor]) sequence =
      (firstOf rs sequence).or (if rumor.sequence = sequence then some rumor else none) := by
  rw [firstOf, List.find?_append, firstOf, List.find?_singleton]
  simp only [decide_eq_true_eq]

/-- Where equal numbers are on equal rumors, every rumor is the first with its number. -/
theorem firstOf_eq_some_iff {rs : List Rumor}
    (agree : ∀ a ∈ rs, ∀ b ∈ rs, a.sequence = b.sequence → a = b) {r : Rumor} :
    firstOf rs r.sequence = some r ↔ r ∈ rs := by
  constructor
  · exact List.mem_of_find?_eq_some
  · intro mem
    cases found : firstOf rs r.sequence with
    | none =>
        have absent := List.find?_eq_none.mp found r mem
        exact (absent (decide_eq_true rfl)).elim
    | some first =>
        rw [agree first (List.mem_of_find?_eq_some found) r mem (sequence_of_firstOf found)]

/-- The database after some rumors of one origin: they are in order, each number with the first
rumor that had it, and there is nothing else. -/
structure Sorted (origin : GoString) (rs : List Rumor) (rumorDB : RumorDB) : Prop where
  ordered : Ordered ((rumorDB.get origin).getD [])
  first : ∀ r, r ∈ (rumorDB.get origin).getD [] ↔ firstOf rs r.sequence = some r
  present : rumorDB.get origin = none ↔ rs = []
  others : ∀ other, other ≠ origin → rumorDB.get other = none

theorem sorted_empty (origin : GoString) : Sorted origin [] FinMap.empty where
  ordered := List.Pairwise.nil
  first r := ⟨fun mem => (List.not_mem_nil mem).elim, fun found => by cases found⟩
  present := ⟨fun _ => rfl, fun _ => rfl⟩
  others _ _ := rfl

namespace Sorted

variable {origin : GoString} {rs : List Rumor} {rumorDB : RumorDB} {rumor : Rumor}

/-- A rumor whose number is there is not stored. -/
theorem store_present (sorted : Sorted origin rs rumorDB) {r : Rumor}
    (mem : r ∈ (rumorDB.get origin).getD []) (same : r.sequence = rumor.sequence) :
    Sorted origin (rs ++ [rumor]) rumorDB where
  ordered := sorted.ordered
  first r' := by
    rw [sorted.first r', firstOf_concat]
    by_cases here : rumor.sequence = r'.sequence
    · have found := (sorted.first r).mp mem
      rw [same, here] at found
      rw [found, Option.some_or]
    · rw [if_neg here, Option.or_none]
  present := by
    have some : rumorDB.get origin ≠ none := by
      intro none
      rw [none] at mem
      cases mem
    exact ⟨fun none => (some none).elim,
      fun nil => (List.append_ne_nil_of_right_ne_nil _ (List.cons_ne_nil _ _) nil).elim⟩
  others := sorted.others

/-- A rumor with a new number is. -/
theorem store_absent (sorted : Sorted origin rs rumorDB) (own : rumor.origin = origin)
    (fresh : ∀ r ∈ (rumorDB.get origin).getD [], r.sequence ≠ rumor.sequence)
    {rumors : List Rumor} (ordered : Ordered rumors)
    (mem : ∀ r, r ∈ rumors ↔ r = rumor ∨ r ∈ (rumorDB.get origin).getD []) :
    Sorted origin (rs ++ [rumor]) (rumorDB.add rumor.origin rumors) := by
  subst own
  have new : firstOf rs rumor.sequence = none := by
    cases found : firstOf rs rumor.sequence with
    | none => rfl
    | some r =>
        have same := sequence_of_firstOf found
        rw [← same] at found
        exact (fresh r ((sorted.first r).mpr found) same).elim
  refine ⟨?_, fun r => ?_, ?_, fun other apart => ?_⟩
  · rw [FinMap.get_add_self]
    exact ordered
  · rw [FinMap.get_add_self, Option.getD_some, mem, sorted.first, firstOf_concat]
    by_cases here : rumor.sequence = r.sequence
    · rw [if_pos here, ← here, new, Option.none_or, Option.some_inj]
      simp only [reduceCtorEq, or_false, eq_comm]
    · have apart : r ≠ rumor := fun eq => here (eq ▸ rfl)
      rw [if_neg here, Option.or_none]
      simp only [apart, false_or]
  · rw [FinMap.get_add_self]
    exact ⟨fun none => (Option.some_ne_none _ none).elim,
      fun nil => (List.append_ne_nil_of_right_ne_nil _ (List.cons_ne_nil _ _) nil).elim⟩
  · rw [FinMap.get_add_of_ne _ _ apart]
    exact sorted.others other apart

/-- Storing one more rumor of the origin. -/
theorem store (sorted : Sorted origin rs rumorDB) (own : rumor.origin = origin) :
    Sorted origin (rs ++ [rumor]) (storeRumor rumorDB rumor) := by
  unfold storeRumor insertInto
  rw [own]
  by_cases there : ∃ r ∈ (rumorDB.get origin).getD [], r.sequence = rumor.sequence
  · obtain ⟨r, mem, same⟩ := there
    rw [insertRumor_present sorted.ordered mem same]
    exact sorted.store_present mem same
  · have fresh : ∀ r ∈ (rumorDB.get origin).getD [], r.sequence ≠ rumor.sequence :=
      fun r mem same => there ⟨r, mem, same⟩
    obtain ⟨rumors, inserted, ordered, mem⟩ := insertRumor_ordered sorted.ordered fresh
    rw [inserted]
    have stored := sorted.store_absent own fresh ordered mem
    rwa [own] at stored

/-- Storing more rumors of the origin. -/
theorem foldl_store (sorted : Sorted origin rs rumorDB) {later : List Rumor}
    (own : ∀ r ∈ later, r.origin = origin) :
    Sorted origin (rs ++ later) (later.foldl storeRumor rumorDB) := by
  induction later generalizing rs rumorDB with
  | nil => rwa [List.append_nil]
  | cons r later ih =>
      have next := sorted.store (own r List.mem_cons_self)
      rw [List.append_cons]
      exact ih next fun r' mem => own r' (List.mem_cons_of_mem r mem)

/-- For each number there is the first rumor that had it, and no other. -/
theorem filter_eq (sorted : Sorted origin rs rumorDB) (sequence : Nat) :
    ((rumorDB.get origin).getD []).filter (fun r => r.sequence = sequence) =
      (firstOf rs sequence).toList := by
  have ordered : Ordered (firstOf rs sequence).toList := by
    cases firstOf rs sequence with
    | none => exact List.Pairwise.nil
    | some r => exact List.pairwise_singleton _ r
  refine eq_of_ordered (List.Pairwise.filter _ sorted.ordered) ordered fun r => ?_
  rw [List.mem_filter, sorted.first, decide_eq_true_eq, Option.mem_toList]
  constructor
  · rintro ⟨found, rfl⟩
    exact found
  · intro found
    have same := sequence_of_firstOf found
    exact ⟨same ▸ found, same⟩

/-- Where equal numbers are on equal rumors, the database depends on the set of rumors alone. -/
theorem eq_of_same {rs' : List Rumor} {rumorDB' : RumorDB} (sorted : Sorted origin rs rumorDB)
    (sorted' : Sorted origin rs' rumorDB') (same : ∀ r, r ∈ rs' ↔ r ∈ rs)
    (agree : ∀ a ∈ rs, ∀ b ∈ rs, a.sequence = b.sequence → a = b) : rumorDB' = rumorDB := by
  have agree' : ∀ a ∈ rs', ∀ b ∈ rs', a.sequence = b.sequence → a = b := fun a memA b memB =>
    agree a ((same a).mp memA) b ((same b).mp memB)
  have lists : (rumorDB'.get origin).getD [] = (rumorDB.get origin).getD [] := by
    refine eq_of_ordered sorted'.ordered sorted.ordered fun r => ?_
    rw [sorted'.first, sorted.first, firstOf_eq_some_iff agree, firstOf_eq_some_iff agree']
    exact same r
  have both : rumorDB'.get origin = none ↔ rumorDB.get origin = none := by
    rw [sorted'.present, sorted.present, List.eq_nil_iff_forall_not_mem,
      List.eq_nil_iff_forall_not_mem]
    exact forall_congr' fun r => not_congr (same r)
  refine FinMap.ext fun key => ?_
  by_cases here : key = origin
  · subst here
    cases stored : rumorDB.get key with
    | none => exact both.mpr stored
    | some rumors =>
        cases stored' : rumorDB'.get key with
        | none =>
            rw [both.mp stored'] at stored
            cases stored
        | some rumors' =>
            rw [stored, stored'] at lists
            exact congrArg some lists
  · rw [sorted.others key here, sorted'.others key here]

end Sorted

namespace InPlace

theorem sorted_storeAll (blank : Rumor) {origin : GoString} {rs : List Rumor}
    (own : ∀ r ∈ rs, r.origin = origin) : Sorted origin rs (storeAll blank rs) := by
  have same : storeRumor blank = Gossip.storeRumor :=
    funext fun rumorDB => funext (storeRumor_eq blank rumorDB)
  rw [storeAll, same]
  exact (sorted_empty origin).foldl_store own

/-- **Sorted storage.**  In whatever order rumors of one origin are stored, the list of the origin
is in increasing order of their numbers and has, for each number, the first rumor that was stored
with it and no other; where equal numbers are on equal rumors, storing the same rumors in another
order, or some of them again, makes the same database. -/
theorem storeAll_sorted (blank : Rumor) {origin : GoString} {rs : List Rumor}
    (own : ∀ r ∈ rs, r.origin = origin) :
    Ordered (((storeAll blank rs).get origin).getD []) ∧
      (∀ sequence,
        (((storeAll blank rs).get origin).getD []).filter (fun r => r.sequence = sequence) =
          (firstOf rs sequence).toList) ∧
      ∀ rs', (∀ r, r ∈ rs' ↔ r ∈ rs) →
        (∀ a ∈ rs, ∀ b ∈ rs, a.sequence = b.sequence → a = b) →
          storeAll blank rs' = storeAll blank rs := by
  have sorted := sorted_storeAll blank own
  refine ⟨sorted.ordered, sorted.filter_eq, fun rs' same agree => ?_⟩
  have own' : ∀ r ∈ rs', r.origin = origin := fun r mem => own r ((same r).mp mem)
  exact sorted.eq_of_same (sorted_storeAll blank own') same agree

/-- A rumor of `A`. -/
def rumorOfA (sequence : Nat) : Rumor := ⟨str "A", sequence, .other (str "chat") []⟩

theorem sorted_second_first :
    let blank : Rumor := ⟨[], 0, .other [] []⟩
    let rs := [rumorOfA 2, rumorOfA 1]
    Ordered (((storeAll blank rs).get (str "A")).getD []) ∧
      (∀ sequence,
        (((storeAll blank rs).get (str "A")).getD []).filter (fun r => r.sequence = sequence) =
          (firstOf rs sequence).toList) ∧
      ∀ rs', (∀ r, r ∈ rs' ↔ r ∈ rs) →
        (∀ a ∈ rs, ∀ b ∈ rs, a.sequence = b.sequence → a = b) →
          storeAll blank rs' = storeAll blank rs := by
  refine storeAll_sorted ⟨[], 0, .other [] []⟩ fun r mem => ?_
  rcases List.mem_cons.mp mem with rfl | mem
  · rfl
  · rw [List.mem_singleton.mp mem]
    rfl

end InPlace

end Peerster.Gossip
