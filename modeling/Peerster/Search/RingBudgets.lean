import Mathlib.Data.UInt
import Peerster.Search.Flooding
import Peerster.Search.Ring

/-!
# The budgets of an expanding ring

Each attempt of `ExpandingRingSearch` gives out the initial budget, multiplied with the factor once
for each attempt before (`requests_within_budgets`).  The products are `uint`s: when one wraps
around the ring does not expand, and an attempt with the budget zero sends nothing. -/

namespace Peerster.Search.Ring

/-- The budgets of the requests of a search among the packets. -/
def spent (requestID : GoString) (packets : List Sent) : Nat :=
  ((ofSearch requestID (requestsOf packets)).map SearchRequest.budget).sum

/-- The budgets that the loop of `SendSearchRequests` has left for a request. -/
def Phase.left (requestID : GoString) : Phase → Nat
  | .sending own _ _ _ budgetAllocation => charge requestID own budgetAllocation.sum
  | _ => 0

/-- A packet of the call: a request of one of its attempts, with a budget. -/
def Requests (ids : List GoString) (p : Sent) : Prop :=
  ∃ r, p.2.msg = .request r ∧ r.requestID ∈ ids ∧ 1 ≤ r.budget

theorem Requests.mono {ids ids' : List GoString} {p : Sent} (requests : Requests ids p)
    (subset : ids ⊆ ids') : Requests ids' p := by
  obtain ⟨r, msg, own, positive⟩ := requests
  exact ⟨r, msg, subset own, positive⟩

section Budgets

variable {h : List Note} {n : Node} {s : Ring} {requestID : GoString}

theorem spent_append (requestID : GoString) (packets packets' : List Sent) :
    spent requestID (packets ++ packets') =
      spent requestID packets + spent requestID packets' := by
  unfold spent ofSearch requestsOf
  rw [List.filterMap_append, List.filter_append, List.map_append, List.sum_append]

/-- Nothing is spent on a request that no packet is for. -/
theorem spent_of_requests {ids : List GoString} {packets : List Sent}
    (all : ∀ p ∈ packets, Requests ids p) (other : requestID ∉ ids) :
    spent requestID packets = 0 := by
  have none : ofSearch requestID (requestsOf packets) = [] := by
    refine List.filter_eq_nil_iff.mpr fun r mem own => ?_
    obtain ⟨p, sent, found⟩ := List.mem_filterMap.mp mem
    obtain ⟨r', msg, inside, -⟩ := all p sent
    rw [msg] at found
    cases found
    exact other (of_decide_eq_true own ▸ inside)
  rw [spent, none]
  rfl

/-- The send to a neighbor costs its budget. -/
theorem spent_request (n : Node) (s : Ring) (c : Gossip.SendChoice)
    (requestID own neighbor : GoString) (neighborBudget : Nat) :
    spent requestID (s.request n c own neighbor neighborBudget) ≤
        charge requestID own neighborBudget ∧
      ∀ p ∈ s.request n c own neighbor neighborBudget, Requests [own] p := by
  unfold request
  split
  · next positive =>
    unfold Node.sendSearchRequest
    split
    · refine ⟨?_, fun p mem => ?_⟩
      · by_cases same : own = requestID <;>
          simp [spent, ofSearch, requestsOf, charge, Node.packet, same]
      · cases List.mem_singleton.mp mem
        exact ⟨_, rfl, List.mem_cons_self, positive⟩
    · exact ⟨Nat.zero_le _, fun p mem => by cases mem⟩
  · exact ⟨Nat.zero_le _, fun p mem => by cases mem⟩

/-- The budget of an attempt is not exceeded, counting what its loop has left. -/
structure Within (h : List Note) (s : Ring) : Prop where
  budget : s.budget = s.conf.initial * s.conf.factor ^ s.attempt
  requests : ∀ p ∈ sent h, Requests ((begun h).map Prod.fst) p
  last : ∀ requestID, s.phase.current = some requestID →
    ∃ earlier neighbors, begun h = earlier ++ [(requestID, neighbors)]
  spent : ∀ k request, (begun h)[k]? = some request →
    spent request.1 (sent h) + s.phase.left request.1 ≤
      (s.conf.initial * s.conf.factor ^ k).toNat

/-- An attempt begins, with a budget for its loop. -/
theorem Within.begins (within : Within h s) (counted : (begun h).length = s.attempt)
    (idle : s.phase.current = none) {neighbors : List GoString} {shares : Nat}
    (new : requestID ∉ (begun h).map Prod.fst) (enough : shares ≤ s.budget.toNat) {k : Nat}
    {request : GoString × List GoString}
    (found : (begun h ++ [(requestID, neighbors)])[k]? = some request) :
    Ring.spent request.1 (sent h) + charge request.1 requestID shares ≤
      (s.conf.initial * s.conf.factor ^ k).toNat := by
  have quiet : ∀ id, s.phase.left id = 0 := by
    intro id
    cases phase : s.phase with
    | sending own c i neighbors budgetAllocation =>
        rw [phase] at idle
        cases idle
    | _ => rfl
  by_cases earlier : k < (begun h).length
  · rw [List.getElem?_append_left earlier] at found
    have before := within.spent k request found
    rw [quiet] at before
    have other : requestID ≠ request.1 := by
      rintro rfl
      exact new (List.mem_map_of_mem (List.mem_of_getElem? found))
    rw [charge, if_neg other]
    exact before
  · have inside := (List.getElem?_eq_some_iff.mp found).1
    rw [List.length_append, List.length_singleton] at inside
    have here : k = (begun h).length := by omega
    subst here
    rw [List.getElem?_append_right (Nat.le_refl _), Nat.sub_self] at found
    cases found
    rw [spent_of_requests within.requests new, Nat.zero_add, charge, if_pos rfl, counted,
      ← within.budget]
    exact enough

theorem sent_begins (h : List Note) (requestID : GoString) (neighbors : List GoString) :
    sent (h ++ [.begins requestID neighbors]) = sent h := by
  rw [sent_append]
  exact List.append_nil _

theorem Within.requests_begins (within : Within h s) (requestID : GoString)
    (neighbors : List GoString) :
    ∀ p ∈ sent (h ++ [.begins requestID neighbors]),
      Requests ((begun (h ++ [.begins requestID neighbors])).map Prod.fst) p := by
  intro p mem
  rw [sent_begins] at mem
  refine (within.requests p mem).mono ?_
  rw [begun_append, List.map_append]
  exact List.subset_append_left _ _

/-- Nothing is sent, and no attempt begins. -/
theorem Within.quiet (within : Within h s) {h' : List Note} {s' : Ring}
    (attempts : begun h' = begun h) (packets : sent h' = sent h) (conf : s'.conf = s.conf)
    (budget : s'.budget = s'.conf.initial * s'.conf.factor ^ s'.attempt)
    (current : ∀ id, s'.phase.current = some id → s.phase.current = some id)
    (left : ∀ id, s'.phase.left id ≤ s.phase.left id) : Within h' s' := by
  refine ⟨budget, ?_, fun id here => ?_, fun k request found => ?_⟩
  · rw [attempts, packets]
    exact within.requests
  · rw [attempts]
    exact within.last id (current id here)
  · rw [attempts] at found
    rw [packets, conf]
    exact (Nat.add_le_add_left (left request.1) _).trans (within.spent k request found)

/-- The call goes on, with requests that have different IDs. -/
theorem Within.go (within : Within h s) (counted : Counted h s) (o : Own)
    (distinct : ((begun (h ++ s.notes n o)).map Prod.fst).Nodup) :
    Within (h ++ s.notes n o) (s.go n o).2 := by
  have goes := goes n s o
  generalize s.notes n o = told at goes distinct
  generalize s.go n o = next at goes
  cases goes with
  | @begins c requestID phase more others =>
      rw [Counted, phase] at counted
      refine ⟨within.budget, ?_, fun id here => ?_, fun k request found => ?_⟩
      · exact within.requests_begins requestID (n.peer.getNeighbors c.neighbors)
      · cases here
        exact ⟨begun h, _, begun_append h _⟩
      · rw [begun_append] at found
        rw [sent_begins]
        refine within.begins counted.1 (by rw [phase]; rfl) (new_of_nodup distinct) ?_ found
        exact (sum_divideBudget c.random _ fun zero =>
          others (List.eq_nil_of_length_eq_zero zero)).le
  | @alone c requestID phase more lonely =>
      rw [Counted, phase] at counted
      refine ⟨within.budget, ?_, fun id here => (by cases here), fun k request found => ?_⟩
      · exact within.requests_begins requestID []
      · rw [begun_append] at found
        rw [sent_begins]
        exact (Nat.le_add_right _ _).trans (within.begins counted.1 (by rw [phase]; rfl)
          (new_of_nodup distinct) (Nat.zero_le _) found)
  | exhausted phase last =>
      rw [List.append_nil]
      exact within.quiet rfl rfl rfl within.budget (fun id here => by cases here)
        fun id => Nat.zero_le _
  | @sends requestID neighbor c i neighborBudget neighbors budgetAllocation phase =>
      have current : s.phase.current = some requestID := by
        rw [phase]
        rfl
      obtain ⟨earlier, others, begins⟩ := within.last requestID current
      refine ⟨within.budget, fun p mem => ?_, fun id here => ?_, fun k request found => ?_⟩
      · rw [begun_append, begun_sends, List.append_nil]
        rw [sent_append, sent_sends] at mem
        rcases List.mem_append.mp mem with before | now
        · exact within.requests p before
        · refine ((spent_request n s _ requestID _ _ _).2 p now).mono fun id mem => ?_
          rw [List.mem_singleton.mp mem, begins]
          exact List.mem_map_of_mem List.mem_concat_self
      · rw [begun_append, begun_sends, List.append_nil]
        exact within.last id (current.trans here)
      · rw [begun_append, begun_sends, List.append_nil] at found
        have before := within.spent k request found
        have cost := (spent_request n s (c.send i) request.1 requestID neighbor neighborBudget).1
        rw [phase, Phase.left, List.sum_cons, charge_add] at before
        rw [sent_append, sent_sends, spent_append, Phase.left]
        dsimp only
        omega
  | @waits requestID c i neighbors budgetAllocation phase =>
      rw [List.append_nil]
      refine within.quiet rfl rfl rfl within.budget (fun id here => ?_) fun id => Nat.zero_le _
      rw [phase]
      exact here
  | @takes requestID reply rest phase waiting incomplete =>
      exact within.quiet (by rw [begun_append]; exact List.append_nil _)
        (by rw [sent_append]; exact List.append_nil _) rfl within.budget (fun id here => here)
        fun id => Nat.le_refl _
  | @finds requestID reply rest fileInfo phase waiting complete =>
      exact within.quiet (by rw [begun_append]; exact List.append_nil _)
        (by rw [sent_append]; exact List.append_nil _) rfl within.budget
        (fun id here => by cases here) fun id => Nat.zero_le _
  | timesOut phase =>
      rw [List.append_nil]
      refine within.quiet rfl rfl rfl ?_ (fun id here => by cases here) fun id => Nat.zero_le _
      dsimp only
      rw [within.budget, pow_succ, mul_assoc]
  | stays =>
      rw [List.append_nil]
      exact within

end Budgets

/-- **The budgets of the attempts.**  All that the call sends is requests of its attempts, with
budgets; those of an attempt add up to no more than the initial budget, multiplied with the factor
once for each attempt before, as `uint`s are. -/
theorem requests_within_budgets (compile : Compile) (n : Node) (conf : ExpandingRing)
    (pattern : Regexp) (moves : List Move)
    (distinct : ((begun (journal compile n (start conf pattern) moves)).map Prod.fst).Nodup) :
    let h := journal compile n (start conf pattern) moves
    (∀ p ∈ sent h, Requests ((begun h).map Prod.fst) p) ∧
      ∀ k request, (begun h)[k]? = some request →
        spent request.1 (sent h) ≤ (conf.initial * conf.factor ^ k).toNat := by
  intro h
  have all : Progress h (Run.run (step compile) (n, start conf pattern) moves).2 ∧
      (((begun h).map Prod.fst).Nodup →
        Within h (Run.run (step compile) (n, start conf pattern) moves).2) := by
    refine Run.run_collect_invariant (I := fun h (p : Node × Ring) => Progress h p.2 ∧
      (((begun h).map Prod.fst).Nodup → Within h p.2)) ⟨start_progress conf pattern, fun _ => ?_⟩
      ?_ moves
    · refine ⟨?_, fun p mem => (by cases mem), fun id here => (by cases here),
        fun k request found => (by cases found)⟩
      rw [start, pow_zero, mul_one]
    · rintro h ⟨n, s⟩ m ⟨progress, within⟩
      cases m with
      | own o =>
          refine ⟨progress.go o, fun distinct => ?_⟩
          refine (within (List.Nodup.sublist ?_ distinct)).go progress.counted o distinct
          rw [begun_append]
          exact (List.sublist_append_left _ _).map Prod.fst
      | input input =>
          obtain ⟨noAttempt, noPacket, noReply⟩ := record_input (n, s) input
          have attempts : begun (h ++ record (n, s) (.input input)) = begun h := by
            rw [begun_append, noAttempt, List.append_nil]
          refine ⟨progress.congr attempts ?_, fun distinct => ?_⟩
          · rw [taken_append, noReply, List.append_nil]
          · rw [attempts] at distinct
            refine (within distinct).quiet attempts ?_ rfl (within distinct).budget
              (fun id here => here) fun id => Nat.le_refl _
            rw [sent_append, noPacket, List.append_nil]
  have within := all.2 distinct
  refine ⟨within.requests, fun k request found => ?_⟩
  have bound := within.spent k request found
  rw [run_conf compile n (start conf pattern) moves] at bound
  exact (Nat.le_add_right _ _).trans bound

/-- The second attempt has twice the budget. -/
theorem budgets_lateReply :
    let h := journal sampleCompile sampleStart (start ⟨1, 2, 2⟩ samplePattern) lateReply
    spent (str "2") (sent h) ≤ 2 := by
  refine (requests_within_budgets sampleCompile sampleStart ⟨1, 2, 2⟩ samplePattern lateReply
    (by decide +kernel)).2 1 (str "2", [str "B"]) (by decide +kernel)

/-- The second budget wraps around, and only the first attempt sends its request. -/
example : (sent (journal sampleCompile sampleStart
    (start ⟨0x8000000000000000, 2, 2⟩ samplePattern)
    [.own (.attempt sampleFanOut (str "1")), .own .send, .own .send, .own .timeout,
      .own (.attempt sampleFanOut (str "2")), .own .send, .own .send])).length = 1 := by
  decide +kernel

end Peerster.Search.Ring
