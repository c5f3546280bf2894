import Peerster.Search.Ring

/-!
# The channels of an expanding ring

Each attempt of `ExpandingRingSearch` registers a channel of its own, which stays registered until
the call returns.  `SendSearchRequests` registers it before it counts the neighbors, and the call
defers its removal only if there are some (`channels_left`).
-/

namespace Peerster.Search.Ring

/-- The request whose channel is not deferred to be removed yet. -/
def Phase.registering : Phase → Option GoString
  | .sending requestID _ _ _ _ => some requestID
  | _ => none

/-- Each attempt so far had neighbors, and the call removes its channel when it returns. -/
structure Deferred (h : List Note) (s : Ring) : Prop where
  begun : ∀ requestID, requestID ∈ s.deferred ∨ s.phase.registering = some requestID →
    requestID ∈ (begun h).map Prod.fst
  removes : ∀ request ∈ Ring.begun h,
    request.2 ≠ [] ∧ (request.1 ∈ s.deferred ∨ s.phase.registering = some request.1)

/-- Once the call has returned, the channels that are left are those of attempts without
neighbors. -/
def Leaves (h : List Note) (p : Node × Ring) : Prop :=
  match p.2.phase with
  | .returned _ => ∀ request ∈ begun h,
      p.1.searchReplyChan.get request.1 = none ↔ request.2 ≠ []
  | _ => Deferred h p.2

section Channels

variable {h : List Note} {n : Node} {s : Ring} {requestID : GoString}

theorem get_foldl_remove (ids : List GoString) (chans : FinMap GoString ReplyChannel) :
    (ids.foldl FinMap.remove chans).get requestID =
      if requestID ∈ ids then none else chans.get requestID := by
  induction ids generalizing chans with
  | nil => rfl
  | cons id ids ih =>
      rw [List.foldl_cons, ih, FinMap.get_remove]
      by_cases here : requestID = id
      · subst here
        simp
      · simp only [List.mem_cons, here, false_or, if_false]

/-- No attempt begins, and the same channels will be removed. -/
theorem Deferred.congr (deferred : Deferred h s) {h' : List Note} {s' : Ring}
    (attempts : Ring.begun h' = Ring.begun h)
    (same : ∀ id, id ∈ s'.deferred ∨ s'.phase.registering = some id ↔
      id ∈ s.deferred ∨ s.phase.registering = some id) : Deferred h' s' := by
  refine ⟨fun id mem => ?_, fun request mem => ?_⟩
  · rw [attempts]
    exact deferred.begun id ((same id).mp mem)
  · rw [attempts] at mem
    obtain ⟨some, removes⟩ := deferred.removes request mem
    exact ⟨some, (same _).mpr removes⟩

/-- An attempt begins, with some neighbors. -/
theorem Deferred.begins (deferred : Deferred h s) (idle : s.phase.registering = none)
    {neighbors : List GoString} (some : neighbors ≠ []) {s' : Ring}
    (same : s'.deferred = s.deferred) (registers : s'.phase.registering = .some requestID) :
    Deferred (h ++ [.begins requestID neighbors]) s' := by
  refine ⟨fun id mem => ?_, fun request mem => ?_⟩
  · rw [begun_append, List.map_append]
    rw [same, registers] at mem
    rcases mem with inside | own
    · exact List.mem_append_left _ (deferred.begun id (.inl inside))
    · cases own
      exact List.mem_append_right _ List.mem_cons_self
  · rw [begun_append] at mem
    rw [same, registers]
    rcases List.mem_append.mp mem with before | now
    · obtain ⟨some, removes⟩ := deferred.removes request before
      rw [idle] at removes
      exact ⟨some, .inl (removes.resolve_right fun none => by cases none)⟩
    · cases List.mem_singleton.mp now
      exact ⟨some, .inr rfl⟩

/-- The call returns with what it has deferred. -/
theorem Deferred.finish (deferred : Deferred h s) (idle : s.phase.registering = none)
    (found : Option FileInfo) : Leaves h (s.finish n found) := by
  intro request mem
  obtain ⟨some, removes⟩ := deferred.removes request mem
  rw [idle] at removes
  have inside : request.1 ∈ s.deferred := removes.resolve_right fun same => by cases same
  refine iff_of_true ?_ some
  simp only [Ring.finish, get_foldl_remove, if_pos inside]

/-- The call returns because it has no neighbors. -/
theorem Deferred.finish_alone (deferred : Deferred h s) (idle : s.phase.registering = none)
    (new : requestID ∉ (Ring.begun h).map Prod.fst) :
    Leaves (h ++ [.begins requestID []]) (s.finish (register n requestID) none) := by
  intro request mem
  rw [begun_append] at mem
  rcases List.mem_append.mp mem with before | now
  · exact deferred.finish (n := register n requestID) idle none request before
  · cases List.mem_singleton.mp now
    have outside : requestID ∉ s.deferred := fun inside => new (deferred.begun _ (.inl inside))
    simp only [Ring.finish, get_foldl_remove, if_neg outside, register, FinMap.get_add_self]
    simp

/-- The call goes on, with requests that have different IDs. -/
theorem Leaves.go (leaves : Leaves h (n, s)) (o : Own)
    (distinct : ((begun (h ++ s.notes n o)).map Prod.fst).Nodup) :
    Leaves (h ++ s.notes n o) (s.go n o) := by
  have goes := goes n s o
  generalize s.notes n o = told at goes distinct
  generalize s.go n o = next at goes
  cases goes with
  | @begins c requestID phase more others =>
      simp only [Leaves, phase] at leaves
      exact leaves.begins (by rw [phase]; rfl) others rfl rfl
  | @alone c requestID phase more lonely =>
      simp only [Leaves, phase] at leaves
      exact leaves.finish_alone (by rw [phase]; rfl) (new_of_nodup distinct)
  | exhausted phase last =>
      simp only [Leaves, phase] at leaves
      rw [List.append_nil]
      exact leaves.finish (by rw [phase]; rfl) none
  | @sends requestID neighbor c i neighborBudget neighbors budgetAllocation phase =>
      simp only [Leaves, phase] at leaves
      refine leaves.congr ?_ fun id => ?_
      · rw [begun_append, begun_sends, List.append_nil]
      · rw [phase]
        rfl
  | @waits requestID c i neighbors budgetAllocation phase =>
      simp only [Leaves, phase] at leaves
      rw [List.append_nil]
      refine leaves.congr rfl fun id => ?_
      simp only [phase, Phase.registering, List.mem_cons, Option.some.injEq, reduceCtorEq, or_false]
      rw [or_comm, eq_comm]
  | @takes requestID reply rest phase waiting incomplete =>
      simp only [Leaves, phase] at leaves ⊢
      exact leaves.congr (by rw [begun_append]; exact List.append_nil _) fun id => Iff.rfl
  | @finds requestID reply rest fileInfo phase waiting complete =>
      simp only [Leaves, phase] at leaves
      have same : Deferred (h ++ [.takes reply]) s :=
        leaves.congr (by rw [begun_append]; exact List.append_nil _) fun id => Iff.rfl
      exact same.finish (by rw [phase]; rfl) (some fileInfo)
  | timesOut phase =>
      simp only [Leaves, phase] at leaves
      rw [List.append_nil]
      refine leaves.congr rfl fun id => ?_
      rw [phase]
      rfl
  | stays =>
      rw [List.append_nil]
      exact leaves

/-- An input registers no channel and removes none, if it leaves the channel to the call. -/
theorem unregistered_react (compile : Compile) (n : Node) {input : Input}
    (apart : (Search.Move.input input).Apart requestID) :
    (n.react compile input).searchReplyChan.get requestID = none ↔
      n.searchReplyChan.get requestID = none := by
  cases registered : n.searchReplyChan.get requestID with
  | some chan =>
      obtain ⟨chan', found, -⟩ := n.react_searchReplyChan compile apart registered
      rw [found]
      simp
  | none =>
      refine iff_of_true ?_ rfl
      cases input with
      | own e =>
          rw [Node.react, Node.step_searchReplyChan apart, registered]
      | request c source msg =>
          rw [Node.react, Node.handleSearchRequestMessage_searchReplyChan, registered]
      | reply source msg => exact handleSearchReplyMessage_unregistered registered

/-- The node gets an input. -/
theorem Leaves.input (leaves : Leaves h (n, s)) (compile : Compile) {input : Input}
    (apart : ∀ request ∈ begun h, (Search.Move.input input).Apart request.1) :
    Leaves (h ++ record (n, s) (.input input)) (n.react compile input, s) := by
  obtain ⟨noAttempt, -, -⟩ := record_input (n, s) input
  have attempts : begun (h ++ record (n, s) (.input input)) = begun h := by
    rw [begun_append, noAttempt, List.append_nil]
  unfold Leaves at leaves ⊢
  dsimp only at leaves ⊢
  split at leaves
  · intro request mem
    rw [attempts] at mem
    rw [unregistered_react compile n (apart request mem)]
    exact leaves request mem
  · exact leaves.congr attempts fun id => Iff.rfl

end Channels

/-- **Channels left behind.**  Request IDs are unique.  When `ExpandingRingSearch` has returned, the
channel of an attempt has been removed if and only if the node had neighbors when the attempt
began. -/
theorem channels_left (compile : Compile) (n : Node) (conf : ExpandingRing) (pattern : Regexp)
    (moves : List Move) (found : Option FileInfo)
    (returned : (Run.run (step compile) (n, start conf pattern) moves).2.phase.result = some found)
    (distinct : ((begun (journal compile n (start conf pattern) moves)).map Prod.fst).Nodup)
    (apart : ∀ input, Move.input input ∈ moves →
      ∀ request ∈ begun (journal compile n (start conf pattern) moves),
        (Search.Move.input input).Apart request.1) :
    ∀ request ∈ begun (journal compile n (start conf pattern) moves),
      (Run.run (step compile) (n, start conf pattern) moves).1.searchReplyChan.get request.1 =
        none ↔ request.2 ≠ [] := by
  have all : ((begun (journal compile n (start conf pattern) moves)).map Prod.fst).Nodup →
      (∀ input, Move.input input ∈ moves →
        ∀ request ∈ begun (journal compile n (start conf pattern) moves),
          (Search.Move.input input).Apart request.1) →
        Leaves (journal compile n (start conf pattern) moves)
          (Run.run (step compile) (n, start conf pattern) moves) := by
    refine Run.run_collect_invariant_mem (I := fun h p => ((begun h).map Prod.fst).Nodup →
      (∀ input, Move.input input ∈ moves → ∀ request ∈ begun h,
        (Search.Move.input input).Apart request.1) → Leaves h p) (fun _ _ => ?_) ?_
    · exact ⟨fun id mem => by rcases mem with inside | own <;> contradiction,
        fun request mem => by cases mem⟩
    · rintro h ⟨n, s⟩ m inside leaves distinct apart
      rw [begun_append] at distinct apart
      have leaves := leaves (distinct.sublist ((List.sublist_append_left _ _).map Prod.fst))
        fun input mem request begun => apart input mem request (List.mem_append_left _ begun)
      cases m with
      | own o => exact leaves.go o (by rw [begun_append]; exact distinct)
      | input input =>
          exact leaves.input compile fun request begun =>
            apart input inside request (List.mem_append_left _ begun)
  have leaves := all distinct apart
  rw [Leaves, Phase.result_eq_some_iff.mp returned] at leaves
  exact leaves

/-- The channel of the second attempt is removed. -/
theorem channels_lateReply :
    (Run.run (step sampleCompile) (sampleStart, start ⟨1, 2, 2⟩ samplePattern)
      lateReply).1.searchReplyChan.get (str "2") = none := by
  refine (channels_left sampleCompile sampleStart ⟨1, 2, 2⟩ samplePattern lateReply
    (some ⟨str "file2", str "metahash", [some (str "chunk")]⟩) (by decide +kernel)
    (by decide +kernel) (fun input mem request _ => ?_) (str "2", [str "B"])
    (by decide +kernel)).mpr (List.cons_ne_nil _ _)
  cases input with
  | own e => simp [lateReply, completeReply] at mem
  | _ => trivial

/-- Without neighbors the channel stays. -/
example :
    ((Run.run (step sampleCompile) (sampleNode (str "A") [], start ⟨1, 2, 2⟩ samplePattern)
      [.own (.attempt sampleFanOut (str "1"))]).1.searchReplyChan.get (str "1")).isSome = true := by
  decide +kernel

end Peerster.Search.Ring
