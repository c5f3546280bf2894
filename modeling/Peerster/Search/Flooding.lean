import Peerster.Search.Handlers
import Peerster.Lib.Run

/-!
# Search requests in a network

Nodes that search over a network that may lose, delay and reorder packets, and delivers each packet
at most once.  A request with budget `b` lets the node that handles it send requests with budgets
that add up to `b - 1`.  So a request on its way stands for itself and for `b - 1` requests to come,
and the requests sent together with those to come never exceed the budget of the search
(`requests_bounded_by_budget`), whatever the topology and whatever the nodes have handled before.

A packet whose route does not lead to its destination at once is relayed; the packet is then on its
way again, and no further request is sent.
-/

namespace Peerster.Search

/-- The nodes by address, and the packets on their way. -/
structure Network where
  nodes : GoString → Node
  inFlight : List Sent

/-- A step of the network: a node does something of its own, or a packet arrives or is lost. -/
inductive Action : Type
  | act (address : GoString) (e : Event)
  | deliver (i : Nat) (relay : Gossip.SendChoice) (c : RequestChoice)
  | lose (i : Nat)

/-- The search requests among the packets. -/
def requestsOf (sent : List Sent) : List SearchRequest :=
  sent.filterMap fun p =>
    match p.2.msg with
    | .request r => some r
    | .reply _ => none

namespace Network

/-- One step. -/
def step (compile : Compile) (net : Network) : Action → Network
  | .act address e =>
      let after := (net.nodes address).step e
      ⟨Function.update net.nodes address after.1, net.inFlight ++ after.2⟩
  | .deliver i relay c =>
      match net.inFlight[i]? with
      | none => net
      | some (address, pkt) =>
          let o := (net.nodes address).handleIncomingPacket compile relay c pkt
          ⟨Function.update net.nodes address o.node, net.inFlight.eraseIdx i ++ o.sent⟩
  | .lose i => { net with inFlight := net.inFlight.eraseIdx i }

/-- The search requests that a step sends; a packet that is relayed is not sent anew. -/
def requests (compile : Compile) (net : Network) : Action → List SearchRequest
  | .act address e => requestsOf ((net.nodes address).step e).2
  | .deliver i relay c =>
      match net.inFlight[i]? with
      | none => []
      | some (address, pkt) =>
          if pkt.header.destination = (net.nodes address).peer.address then
            requestsOf ((net.nodes address).handleIncomingPacket compile relay c pkt).sent
          else []
  | .lose _ => []

end Network

/-! ## What a request stands for -/

/-- A budget, when the request it belongs to is one of the search. -/
def charge (requestID own : GoString) (budget : Nat) : Nat := if own = requestID then budget else 0

theorem charge_add (requestID own : GoString) (budget budget' : Nat) :
    charge requestID own (budget + budget') =
      charge requestID own budget + charge requestID own budget' := by
  unfold charge
  split <;> rfl

/-- The requests that a packet may still lead to: one less than its budget, for a request of the
search. -/
def toCome (requestID : GoString) (p : Sent) : Nat :=
  match p.2.msg with
  | .request r => charge requestID r.requestID (r.budget - 1)
  | .reply _ => 0

/-- The requests of the search that packets may still lead to. -/
def pending (requestID : GoString) (sent : List Sent) : Nat := (sent.map (toCome requestID)).sum

/-- The requests of the search. -/
def ofSearch (requestID : GoString) (requests : List SearchRequest) : List SearchRequest :=
  requests.filter fun r => r.requestID = requestID

/-- The packets are requests of the search at a cost of at most `total`, counting those to come, and
each has a budget. -/
structure Costs (requestID : GoString) (total : Nat) (sent : List Sent) : Prop where
  bounded : (ofSearch requestID (requestsOf sent)).length + pending requestID sent ≤ total
  budget : ∀ r ∈ requestsOf sent, 1 ≤ r.budget

theorem costs_nil (requestID : GoString) (total : Nat) : Costs requestID total [] := by
  refine ⟨Nat.zero_le _, ?_⟩
  intro r mem
  cases mem

theorem pending_append (requestID : GoString) (sent sent' : List Sent) :
    pending requestID (sent ++ sent') = pending requestID sent + pending requestID sent' := by
  unfold pending
  rw [List.map_append, List.sum_append]

theorem Costs.append {requestID : GoString} {total total' : Nat} {sent sent' : List Sent}
    (first : Costs requestID total sent) (second : Costs requestID total' sent') :
    Costs requestID (total + total') (sent ++ sent') := by
  have count : (ofSearch requestID (requestsOf (sent ++ sent'))).length =
      (ofSearch requestID (requestsOf sent)).length +
        (ofSearch requestID (requestsOf sent')).length := by
    unfold ofSearch requestsOf
    rw [List.filterMap_append, List.filter_append, List.length_append]
  refine ⟨?_, fun r mem => ?_⟩
  · have bounded := first.bounded
    have bounded' := second.bounded
    rw [count, pending_append]
    omega
  · unfold requestsOf at mem
    rw [List.filterMap_append] at mem
    rcases List.mem_append.mp mem with mem | mem
    · exact first.budget r mem
    · exact second.budget r mem

/-- A request costs its budget, if it is one of the search. -/
theorem costs_request {p : Sent} {r : SearchRequest} (msg : p.2.msg = .request r)
    (positive : 1 ≤ r.budget) (requestID : GoString) :
    Costs requestID (charge requestID r.requestID r.budget) [p] := by
  have one : requestsOf [p] = [r] := by
    unfold requestsOf
    simp [msg]
  refine ⟨?_, fun r' mem => ?_⟩
  · rw [one]
    unfold ofSearch pending toCome charge
    simp only [List.map_singleton, msg, List.sum_singleton]
    by_cases same : r.requestID = requestID
    · simp only [same, decide_true, List.filter_cons_of_pos, List.filter_nil, List.length_singleton,
        if_true]
      omega
    · simp [same]
  · rw [one] at mem
    rw [List.mem_singleton.mp mem]
    exact positive

theorem costs_reply {p : Sent} {reply : SearchReply} (msg : p.2.msg = .reply reply)
    (requestID : GoString) : Costs requestID 0 [p] := by
  have none : requestsOf [p] = [] := by
    unfold requestsOf
    simp [msg]
  refine ⟨?_, fun r mem => ?_⟩
  · rw [none]
    unfold ofSearch pending toCome
    simp [msg]
  · rw [none] at mem
    cases mem

/-! ## What the handlers send -/

/-- The loop over neighbors costs what their budgets add up to. -/
theorem sendEach_costs {send : Nat → GoString → Nat → Option Sent} {own : GoString}
    (sends : ∀ i neighbor budget p, send i neighbor budget = some p →
      ∃ r, p.2.msg = .request r ∧ r.requestID = own ∧ r.budget = budget)
    (requestID : GoString) (i : Nat) (neighbors : List GoString) (budgets : List Nat) :
    Costs requestID (charge requestID own budgets.sum)
      (sendEach send i neighbors budgets) := by
  induction neighbors generalizing i budgets with
  | nil => exact costs_nil _ _
  | cons neighbor neighbors ih =>
      cases budgets with
      | nil => exact costs_nil _ _
      | cons budget budgets =>
          have here : Costs requestID (charge requestID own budget)
              (if budget > 0 then (send i neighbor budget).toList else []) := by
            split
            · next positive =>
              cases sent : send i neighbor budget with
              | none => exact costs_nil _ _
              | some p =>
                  obtain ⟨r, msg, same, amount⟩ := sends i neighbor budget p sent
                  have cost := costs_request msg (by omega) requestID
                  rw [same, amount] at cost
                  exact cost
            · exact costs_nil _ _
          rw [List.sum_cons, charge_add]
          exact here.append (ih (i + 1) budgets)

namespace Node

/-- Forwarding a request costs one less than its budget. -/
theorem forwardSearchRequest_costs (n : Node) (c : FanOut) (searchReq : SearchRequest)
    (source requestID : GoString) :
    Costs requestID (charge requestID searchReq.requestID (searchReq.budget - 1))
      (n.forwardSearchRequest c searchReq source) := by
  unfold forwardSearchRequest
  split
  · dsimp only
    split
    · next others =>
      have shares : charge requestID searchReq.requestID (searchReq.budget - 1) =
          charge requestID searchReq.requestID (divideBudget c.random (searchReq.budget - 1)
            (n.peer.getOtherNeighbors c.neighbors source).length).sum := by
        rw [sum_divideBudget c.random (searchReq.budget - 1) (Nat.ne_of_gt others)]
      rw [shares]
      apply sendEach_costs
      intro i neighbor budget p sent
      unfold sendForwardedSearchRequest at sent
      split at sent
      · cases sent
        exact ⟨_, rfl, rfl, rfl⟩
      · cases sent
    · exact costs_nil _ _
  · exact costs_nil _ _

/-- The requests of a search to the neighbors cost its budget. -/
theorem sendToNeighbors_costs (n : Node) (c : FanOut) (own : GoString) (budget : Nat) (reg : Regexp)
    (requestID : GoString) (some : (n.peer.getNeighbors c.neighbors).length ≠ 0) :
    Costs requestID (charge requestID own budget) (n.sendToNeighbors c own budget reg) := by
  have shares : charge requestID own budget = charge requestID own
      (divideBudget c.random budget (n.peer.getNeighbors c.neighbors).length).sum := by
    rw [sum_divideBudget c.random budget some]
  rw [shares]
  apply sendEach_costs
  intro i neighbor budget p sent
  unfold sendSearchRequest at sent
  split at sent
  · cases sent
    exact ⟨_, rfl, rfl, rfl⟩
  · cases sent

/-- Handling a request costs what it stands for. -/
theorem handleSearchRequestMessage_costs (compile : Compile) (n : Node) (c : RequestChoice)
    (source : GoString) (searchReq : SearchRequest) (requestID : GoString) :
    Costs requestID (charge requestID searchReq.requestID (searchReq.budget - 1))
      (n.handleSearchRequestMessage compile c source searchReq).sent := by
  have forwarded := n.forwardSearchRequest_costs c.fanOut searchReq source requestID
  unfold handleSearchRequestMessage
  split
  · exact costs_nil _ _
  · dsimp only
    split
    · exact forwarded
    · split
      · exact forwarded
      · next reply replied =>
        unfold sendReplyMessage at replied
        split at replied
        · cases replied
        · split at replied
          · cases replied
          · cases replied
            exact forwarded.append (costs_reply rfl requestID)

end Node

/-! ## Runs -/

/-- A call that starts a search, with its request ID and budget. -/
def Event.search : Event → Option (GoString × Nat)
  | .searchAll _ requestID _ budget => some (requestID, budget)
  | .sendSearchRequests _ requestID _ budget => some (requestID, budget)
  | _ => none

/-- The cost of a step of a node of its own, for a search. -/
def Event.cost (requestID : GoString) (e : Event) : Nat :=
  match e.search with
  | some (own, budget) => charge requestID own budget
  | none => 0

theorem Node.step_costs (n : Node) (e : Event) (requestID : GoString) :
    Costs requestID (e.cost requestID) (n.step e).2 := by
  cases e with
  | searchAll c own reg budget =>
      unfold Node.step Node.searchAll
      dsimp only
      split
      · exact costs_nil _ _
      · next some => exact n.sendToNeighbors_costs c own budget reg requestID some
  | sendSearchRequests c own reg budget =>
      unfold Node.step Node.sendSearchRequests
      dsimp only
      split
      · exact costs_nil _ _
      · next some => exact Node.sendToNeighbors_costs _ c own budget reg requestID some
  | _ => exact costs_nil _ _

namespace Network

variable {requestID : GoString}

theorem pending_eraseIdx (requestID : GoString) {sent : List Sent} {i : Nat} {p : Sent}
    (found : sent[i]? = some p) :
    pending requestID (sent.eraseIdx i) + toCome requestID p = pending requestID sent := by
  obtain ⟨inside, rfl⟩ := List.getElem?_eq_some_iff.mp found
  have sums := ((List.getElem_cons_eraseIdx_perm inside).map (toCome requestID)).sum_eq
  rw [List.map_cons, List.sum_cons] at sums
  unfold pending
  omega

theorem pending_eraseIdx_le (requestID : GoString) (sent : List Sent) (i : Nat) :
    pending requestID (sent.eraseIdx i) ≤ pending requestID sent := by
  cases found : sent[i]? with
  | none => rw [List.eraseIdx_of_length_le (List.getElem?_eq_none_iff.mp found)]
  | some p =>
      have split := pending_eraseIdx requestID found
      omega

/-- The cost of a step: only the start of the search has one. -/
def cost (requestID : GoString) : Action → Nat
  | .act _ e => e.cost requestID
  | _ => 0

/-- A packet that has arrived pays for the requests that it leads to. -/
theorem arrived_costs (compile : Compile) (n : Node) (relay : Gossip.SendChoice) (c : RequestChoice)
    {p : Sent} (arrived : p.2.header.destination = n.peer.address) (requestID : GoString) :
    Costs requestID (toCome requestID p) (n.handleIncomingPacket compile relay c p.2).sent := by
  unfold Node.handleIncomingPacket toCome
  rw [if_pos arrived]
  cases p.2.msg with
  | request searchReq =>
      exact n.handleSearchRequestMessage_costs compile c p.2.header.source searchReq requestID
  | reply searchReply => exact costs_nil _ _

/-- A packet that is relayed is on its way again. -/
theorem relayed_pending (compile : Compile) (n : Node) (relay : Gossip.SendChoice)
    (c : RequestChoice) {p : Sent} (relayed : p.2.header.destination ≠ n.peer.address)
    (requestID : GoString) :
    pending requestID (n.handleIncomingPacket compile relay c p.2).sent ≤ toCome requestID p := by
  unfold Node.handleIncomingPacket Node.relayPacket
  rw [if_neg relayed]
  dsimp only
  split
  · unfold pending toCome
    simp
  · exact Nat.zero_le _

/-- One step: the requests it sends, and those still to come, are paid for by those to come before
and by the cost of the step. -/
theorem step_spends (compile : Compile) (net : Network) (requestID : GoString) (a : Action) :
    (ofSearch requestID (net.requests compile a)).length +
        pending requestID (net.step compile a).inFlight ≤
      pending requestID net.inFlight + cost requestID a ∧
    ∀ r ∈ net.requests compile a, 1 ≤ r.budget := by
  cases a with
  | act address e =>
      obtain ⟨bounded, budget⟩ := (net.nodes address).step_costs e requestID
      refine ⟨?_, budget⟩
      simp only [Network.step, requests, cost, pending_append]
      omega
  | deliver i relay c =>
      cases found : net.inFlight[i]? with
      | none =>
          simp only [Network.step, requests, cost, found]
          refine ⟨by simp [ofSearch], fun r mem => by cases mem⟩
      | some p =>
          have removed := pending_eraseIdx requestID found
          simp only [Network.step, requests, cost, found, pending_append]
          by_cases arrived : p.2.header.destination = (net.nodes p.1).peer.address
          · obtain ⟨bounded, budget⟩ :=
              arrived_costs compile (net.nodes p.1) relay c arrived requestID
            rw [if_pos arrived]
            refine ⟨?_, budget⟩
            omega
          · have again := relayed_pending compile (net.nodes p.1) relay c arrived requestID
            rw [if_neg arrived]
            refine ⟨?_, fun r mem => by cases mem⟩
            simp only [ofSearch, List.filter_nil, List.length_nil]
            omega
  | lose i =>
      have less := pending_eraseIdx_le requestID net.inFlight i
      simp only [Network.step, requests, cost]
      refine ⟨by simpa [ofSearch] using less, fun r mem => by cases mem⟩

/-- A run: the requests sent and those still to come are paid for. -/
theorem run_spends (compile : Compile) (net : Network) (requestID : GoString)
    (actions : List Action) :
    (ofSearch requestID (Run.collect (step compile) (requests compile) net actions)).length +
        pending requestID (Run.run (step compile) net actions).inFlight ≤
      pending requestID net.inFlight + (actions.map (cost requestID)).sum ∧
    ∀ r ∈ Run.collect (step compile) (requests compile) net actions, 1 ≤ r.budget := by
  induction actions generalizing net with
  | nil => exact ⟨by simp [ofSearch], fun r mem => by cases mem⟩
  | cons a actions ih =>
      obtain ⟨first, budget⟩ := step_spends compile net requestID a
      obtain ⟨rest, budget'⟩ := ih (net.step compile a)
      simp only [Run.collect, Run.run_cons, List.map_cons, List.sum_cons]
      refine ⟨?_, fun r mem => ?_⟩
      · unfold ofSearch at first rest ⊢
        rw [List.filter_append, List.length_append]
        omega
      · rcases List.mem_append.mp mem with mem | mem
        · exact budget r mem
        · exact budget' r mem

/-- Where no request of the search is on its way, none is to come. -/
theorem pending_eq_zero {sent : List Sent}
    (fresh : ∀ r ∈ requestsOf sent, r.requestID ≠ requestID) : pending requestID sent = 0 := by
  apply List.sum_eq_zero
  intro k mem
  obtain ⟨p, listed, rfl⟩ := List.mem_map.mp mem
  unfold toCome
  split
  · next r msg =>
    refine if_neg (fresh r (List.mem_filterMap.mpr ⟨p, listed, ?_⟩))
    rw [msg]
  · rfl

theorem cost_eq_zero {a : Action}
    (other : ∀ address e b, a = .act address e → e.search ≠ some (requestID, b)) :
    cost requestID a = 0 := by
  cases a with
  | act address e =>
      cases started : e.search with
      | none => simp only [cost, Event.cost, started]
      | some search =>
          obtain ⟨own, budget⟩ := search
          simp only [cost, Event.cost, started]
          refine if_neg fun same => ?_
          rw [same] at started
          exact other address e budget rfl started
  | deliver i relay c => rfl
  | lose i => rfl

/-- **Flooding is bounded by the budget.**  Of one search, the network ever sends at most as many
requests as its budget, and each carries a budget of its own. -/
theorem requests_bounded_by_budget (compile : Compile) (net : Network) (address : GoString)
    (e : Event) (requestID : GoString) (budget : Nat) (starts : e.search = some (requestID, budget))
    (fresh : ∀ r ∈ requestsOf net.inFlight, r.requestID ≠ requestID) (actions : List Action)
    (once : ∀ address e b, .act address e ∈ actions → e.search ≠ some (requestID, b)) :
    let sent := ofSearch requestID
      (Run.collect (step compile) (requests compile) net (.act address e :: actions))
    sent.length ≤ budget ∧ ∀ r ∈ sent, 1 ≤ r.budget := by
  obtain ⟨spends, budgets⟩ := run_spends compile net requestID (.act address e :: actions)
  have start : pending requestID net.inFlight = 0 := pending_eq_zero fresh
  have first : cost requestID (.act address e) = budget := by
    simp only [cost, Event.cost, starts, charge, if_true]
  have rest : (actions.map (cost requestID)).sum = 0 := by
    apply List.sum_eq_zero
    intro k mem
    obtain ⟨a, listed, rfl⟩ := List.mem_map.mp mem
    exact cost_eq_zero fun address e b same => once address e b (same ▸ listed)
  rw [start, List.map_cons, List.sum_cons, first, rest] at spends
  exact ⟨by omega, fun r mem => budgets r (List.mem_of_mem_filter mem)⟩

/-! ## Three nodes -/

/-- Three nodes that are peers of one another. -/
def triangle : Network :=
  ⟨fun address => sampleNode address [str "a", str "b", str "c"], []⟩

/-- `a` searches with budget 3; `b` gets 2 of it and forwards 1 to `c`, which gets 1 from `a`. -/
def triangleSearch : List Action :=
  [.deliver 0 Gossip.sampleSend sampleRequest, .deliver 0 Gossip.sampleSend sampleRequest,
    .deliver 0 Gossip.sampleSend sampleRequest]

theorem bounded_triangle :
    let sent := ofSearch (str "id") (Run.collect (step sampleCompile) (requests sampleCompile)
      triangle (.act (str "a") (.searchAll sampleFanOut (str "id") ⟨str "x", fun _ => false⟩ 3) ::
        triangleSearch))
    sent.length ≤ 3 ∧ ∀ r ∈ sent, 1 ≤ r.budget :=
  requests_bounded_by_budget sampleCompile triangle (str "a") _ (str "id") 3 rfl
    (fun r mem => by cases mem) triangleSearch
    (fun address e b listed => by simp [triangleSearch] at listed)

end Network

end Peerster.Search
