import Peerster.Search.Collecting
import Peerster.Search.Local

/-!
# The expanding ring

The whole of `ExpandingRingSearch`, with `SendSearchRequests`: attempt after attempt, each with a
request and a channel of its own, until a reply tells of a complete file.  The node goes on handling
messages meanwhile.  A reply to an earlier attempt finds that attempt's channel still registered,
and waits there for nobody.

What a call does is written in a journal.  It says what the call returns: the first complete file in
the replies that it has taken, each of which answers the attempt that took it
(`returns_first_complete`).
-/

namespace Peerster.Search

/-- `ExpandingRing`; how long the timeout is makes no difference to what may happen. -/
structure ExpandingRing where
  initial : UInt64
  factor : UInt64
  retry : UInt64

namespace Ring

/-- Where a call of `ExpandingRingSearch` is: at the head of its loop, in the loop of
`SendSearchRequests` with the neighbors and budgets that are left, in its inner loop, or done. -/
inductive Phase : Type
  | attempting
  | sending (requestID : GoString) (c : FanOut) (i : Nat) (neighbors : List GoString)
      (budgetAllocation : List Nat)
  | waiting (requestID : GoString)
  | returned (found : Option FileInfo)

/-- What the call does next. -/
inductive Own : Type
  | attempt (c : FanOut) (requestID : GoString)
  | send
  | receive
  | timeout

/-- What happens next: the call goes on, or the node gets an input. -/
inductive Move : Type
  | own (o : Own)
  | input (input : Input)

/-- An entry of the journal: an attempt begins, with these neighbors; a request is sent; a reply is
taken from the channel; a reply is handled. -/
inductive Note : Type
  | begins (requestID : GoString) (neighbors : List GoString)
  | sends (p : Sent)
  | takes (reply : SearchReply)
  | handles (reply : SearchReply)

/-- The attempts in a journal. -/
def begun (journal : List Note) : List (GoString × List GoString) :=
  journal.filterMap fun
    | .begins requestID neighbors => some (requestID, neighbors)
    | _ => none

/-- The packets in a journal. -/
def sent (journal : List Note) : List Sent :=
  journal.filterMap fun
    | .sends p => some p
    | _ => none

/-- The replies in a journal that the call has taken. -/
def taken (journal : List Note) : List SearchReply :=
  journal.filterMap fun
    | .takes reply => some reply
    | _ => none

/-- The replies in a journal that the node has handled. -/
def handled (journal : List Note) : List SearchReply :=
  journal.filterMap fun
    | .handles reply => some reply
    | _ => none

end Ring

/-- A call of `ExpandingRingSearch`; the channels it has deferred to remove, the latest first. -/
structure Ring where
  conf : ExpandingRing
  pattern : Regexp
  attempt : Nat
  budget : UInt64
  deferred : List GoString
  phase : Ring.Phase

/-- The replies that wait for a request. -/
def Node.replies (n : Node) (requestID : GoString) : List SearchReply :=
  match n.searchReplyChan.get requestID with
  | none => []
  | some chan => chan.buffer

namespace Ring

/-- The call begins. -/
def start (conf : ExpandingRing) (pattern : Regexp) : Ring :=
  ⟨conf, pattern, 0, conf.initial, [], .attempting⟩

/-- The call returns, and removes the channels. -/
def finish (n : Node) (s : Ring) (found : Option FileInfo) : Node × Ring :=
  ({ n with searchReplyChan := s.deferred.foldl FinMap.remove n.searchReplyChan },
    { s with phase := .returned found })

/-- The node with the channel of an attempt. -/
def register (n : Node) (requestID : GoString) : Node :=
  { n with searchReplyChan := n.searchReplyChan.add requestID ⟨50, []⟩ }

/-- What the call does. -/
def go (n : Node) (s : Ring) : Own → Node × Ring
  | .attempt c requestID =>
      match s.phase with
      | .attempting =>
          if s.attempt < s.conf.retry.toNat then
            let neighbors := n.peer.getNeighbors c.neighbors
            if neighbors.length = 0 then s.finish (register n requestID) none
            else
              let budgetAllocation := divideBudget c.random s.budget.toNat neighbors.length
              (register n requestID,
                { s with phase := .sending requestID c 0 neighbors budgetAllocation })
          else s.finish n none
      | _ => (n, s)
  | .send =>
      match s.phase with
      | .sending requestID c i (_ :: neighbors) (_ :: budgetAllocation) =>
          (n, { s with phase := .sending requestID c (i + 1) neighbors budgetAllocation })
      | .sending requestID _ _ _ _ =>
          (n, { s with deferred := requestID :: s.deferred, phase := .waiting requestID })
      | _ => (n, s)
  | .receive =>
      match s.phase with
      | .waiting requestID =>
          match n.replies requestID with
          | [] => (n, s)
          | reply :: _ =>
              match reply.responses.find? FileInfo.hasAllChunks with
              | some fileInfo => s.finish (n.takeReply requestID) (some fileInfo)
              | none => (n.takeReply requestID, s)
      | _ => (n, s)
  | .timeout =>
      match s.phase with
      | .waiting _ =>
          (n, { s with
            attempt := s.attempt + 1, budget := s.budget * s.conf.factor, phase := .attempting })
      | _ => (n, s)

/-- The send to a neighbor. -/
def request (n : Node) (s : Ring) (c : Gossip.SendChoice) (requestID neighbor : GoString)
    (neighborBudget : Nat) : List Sent :=
  if neighborBudget > 0 then
    (n.sendSearchRequest c requestID neighborBudget neighbor s.pattern).toList
  else []

/-- What the journal says of it. -/
def notes (n : Node) (s : Ring) : Own → List Note
  | .attempt c requestID =>
      match s.phase with
      | .attempting =>
          if s.attempt < s.conf.retry.toNat then
            [.begins requestID (n.peer.getNeighbors c.neighbors)]
          else []
      | _ => []
  | .send =>
      match s.phase with
      | .sending requestID c i (neighbor :: _) (neighborBudget :: _) =>
          (s.request n (c.send i) requestID neighbor neighborBudget).map .sends
      | _ => []
  | .receive =>
      match s.phase with
      | .waiting requestID => ((n.replies requestID).take 1).map .takes
      | _ => []
  | .timeout => []

/-- One step. -/
def step (compile : Compile) : Node × Ring → Move → Node × Ring
  | (n, s), .own o => s.go n o
  | (n, s), .input input => (n.react compile input, s)

/-- What the journal says of a step. -/
def record : Node × Ring → Move → List Note
  | (n, s), .own o => s.notes n o
  | _, .input (.reply _ msg) => [.handles msg]
  | _, .input _ => []

/-- The journal of a call. -/
def journal (compile : Compile) (n : Node) (s : Ring) (moves : List Move) : List Note :=
  Run.collect (step compile) record (n, s) moves

/-! ## What a call does -/

/-- The ways in which a call goes on, with what its journal says. -/
inductive Goes (n : Node) (s : Ring) : Own → List Note → Node × Ring → Prop
  | begins {c : FanOut} {requestID : GoString} (phase : s.phase = .attempting)
      (more : s.attempt < s.conf.retry.toNat) (others : n.peer.getNeighbors c.neighbors ≠ []) :
      Goes n s (.attempt c requestID) [.begins requestID (n.peer.getNeighbors c.neighbors)]
        (register n requestID,
          { s with
            phase := .sending requestID c 0 (n.peer.getNeighbors c.neighbors)
              (divideBudget c.random s.budget.toNat (n.peer.getNeighbors c.neighbors).length) })
  | alone {c : FanOut} {requestID : GoString} (phase : s.phase = .attempting)
      (more : s.attempt < s.conf.retry.toNat) (lonely : n.peer.getNeighbors c.neighbors = []) :
      Goes n s (.attempt c requestID) [.begins requestID []]
        (s.finish (register n requestID) none)
  | exhausted {c : FanOut} {requestID : GoString} (phase : s.phase = .attempting)
      (last : ¬ s.attempt < s.conf.retry.toNat) :
      Goes n s (.attempt c requestID) [] (s.finish n none)
  | sends {requestID neighbor : GoString} {c : FanOut} {i neighborBudget : Nat}
      {neighbors : List GoString} {budgetAllocation : List Nat}
      (phase : s.phase =
        .sending requestID c i (neighbor :: neighbors) (neighborBudget :: budgetAllocation)) :
      Goes n s .send ((s.request n (c.send i) requestID neighbor neighborBudget).map .sends)
        (n, { s with phase := .sending requestID c (i + 1) neighbors budgetAllocation })
  | waits {requestID : GoString} {c : FanOut} {i : Nat} {neighbors : List GoString}
      {budgetAllocation : List Nat}
      (phase : s.phase = .sending requestID c i neighbors budgetAllocation) :
      Goes n s .send []
        (n, { s with deferred := requestID :: s.deferred, phase := .waiting requestID })
  | takes {requestID : GoString} {reply : SearchReply} {rest : List SearchReply}
      (phase : s.phase = .waiting requestID) (waiting : n.replies requestID = reply :: rest)
      (incomplete : reply.responses.find? FileInfo.hasAllChunks = none) :
      Goes n s .receive [.takes reply] (n.takeReply requestID, s)
  | finds {requestID : GoString} {reply : SearchReply} {rest : List SearchReply}
      {fileInfo : FileInfo} (phase : s.phase = .waiting requestID)
      (waiting : n.replies requestID = reply :: rest)
      (complete : reply.responses.find? FileInfo.hasAllChunks = some fileInfo) :
      Goes n s .receive [.takes reply] (s.finish (n.takeReply requestID) (some fileInfo))
  | timesOut {requestID : GoString} (phase : s.phase = .waiting requestID) :
      Goes n s .timeout []
        (n, { s with
          attempt := s.attempt + 1, budget := s.budget * s.conf.factor, phase := .attempting })
  | stays (o : Own) : Goes n s o [] (n, s)

theorem goes (n : Node) (s : Ring) (o : Own) : Goes n s o (s.notes n o) (s.go n o) := by
  cases o with
  | attempt c requestID =>
      unfold notes go
      dsimp only
      split
      · next phase =>
        split
        · next more =>
          split
          · next lonely =>
            rw [List.eq_nil_of_length_eq_zero lonely]
            exact .alone phase more (List.eq_nil_of_length_eq_zero lonely)
          · next others =>
            exact .begins phase more fun lonely => others (List.length_eq_zero_iff.mpr lonely)
        · next last => exact .exhausted phase last
      · exact .stays _
  | send =>
      unfold notes go
      cases phase : s.phase with
      | sending requestID c i neighbors budgetAllocation =>
          cases neighbors with
          | nil => exact .waits phase
          | cons neighbor neighbors =>
              cases budgetAllocation with
              | nil => exact .waits phase
              | cons neighborBudget budgetAllocation => exact .sends phase
      | _ => exact .stays _
  | receive =>
      unfold notes go
      cases phase : s.phase with
      | waiting requestID =>
          dsimp only
          cases waiting : n.replies requestID with
          | nil => exact .stays _
          | cons reply rest =>
              dsimp only
              cases complete : reply.responses.find? FileInfo.hasAllChunks with
              | none => exact .takes phase waiting complete
              | some fileInfo => exact .finds phase waiting complete
      | _ => exact .stays _
  | timeout =>
      unfold notes go
      cases phase : s.phase with
      | waiting requestID => exact .timesOut phase
      | _ => exact .stays _

/-! ## The journal -/

section Journal

variable (h h' : List Note) (packets : List Sent)

@[simp] theorem begun_append : begun (h ++ h') = begun h ++ begun h' := List.filterMap_append

@[simp] theorem sent_append : sent (h ++ h') = sent h ++ sent h' := List.filterMap_append

@[simp] theorem taken_append : taken (h ++ h') = taken h ++ taken h' := List.filterMap_append

@[simp] theorem handled_append : handled (h ++ h') = handled h ++ handled h' :=
  List.filterMap_append

@[simp] theorem begun_sends : begun (packets.map .sends) = [] := by
  rw [begun, List.filterMap_map]
  exact List.filterMap_eq_nil_iff.mpr fun _ _ => rfl

@[simp] theorem sent_sends : sent (packets.map .sends) = packets := by
  rw [sent, List.filterMap_map]
  exact List.filterMap_some

@[simp] theorem taken_sends : taken (packets.map .sends) = [] := by
  rw [taken, List.filterMap_map]
  exact List.filterMap_eq_nil_iff.mpr fun _ _ => rfl

@[simp] theorem handled_sends : handled (packets.map .sends) = [] := by
  rw [handled, List.filterMap_map]
  exact List.filterMap_eq_nil_iff.mpr fun _ _ => rfl

/-- An input begins no attempt, sends nothing for the call and takes nothing. -/
theorem record_input (p : Node × Ring) (input : Input) :
    begun (record p (.input input)) = [] ∧ sent (record p (.input input)) = [] ∧
      taken (record p (.input input)) = [] := by
  cases input with
  | own e => exact ⟨rfl, rfl, rfl⟩
  | request c source msg => exact ⟨rfl, rfl, rfl⟩
  | reply source msg => exact ⟨rfl, rfl, rfl⟩

/-- The request of a new attempt is not one of the earlier ones. -/
theorem new_of_nodup {h : List Note} {requestID : GoString} {neighbors : List GoString}
    (distinct : ((begun (h ++ [.begins requestID neighbors])).map Prod.fst).Nodup) :
    requestID ∉ (begun h).map Prod.fst := by
  intro old
  rw [begun_append, List.map_append] at distinct
  exact (List.nodup_append.mp distinct).2.2 requestID old requestID List.mem_cons_self rfl

/-- The replies to a request among those that an input handles. -/
theorem handledReplies_sublist (requestID : GoString) (p : Node × Ring) (input : Input) :
    (Call.handledReplies requestID (.input input)).Sublist (handled (record p (.input input))) ∧
      ∀ reply ∈ Call.handledReplies requestID (.input input), reply.requestID = requestID := by
  cases input with
  | own e => exact ⟨.slnil, fun _ mem => by cases mem⟩
  | request c source msg => exact ⟨.slnil, fun _ mem => by cases mem⟩
  | reply source msg =>
      by_cases own : msg.requestID = requestID
      · simp only [Call.handledReplies, if_pos own]
        refine ⟨.refl [msg], fun reply mem => ?_⟩
        rw [List.mem_singleton.mp mem, own]
      · simp only [Call.handledReplies, if_neg own]
        exact ⟨List.nil_sublist _, fun _ mem => by cases mem⟩

end Journal

/-! ## Without interruption -/

/-- The loop of `SendSearchRequests` without interruption. -/
theorem run_sends (compile : Compile) (n : Node) {s : Ring} {requestID : GoString} {c : FanOut}
    {i : Nat} {neighbors : List GoString} {budgetAllocation : List Nat}
    (phase : s.phase = .sending requestID c i neighbors budgetAllocation)
    (shares : budgetAllocation.length = neighbors.length) :
    let moves := List.replicate (neighbors.length + 1) (Move.own .send)
    Run.run (step compile) (n, s) moves =
        (n, { s with deferred := requestID :: s.deferred, phase := .waiting requestID }) ∧
      sent (journal compile n s moves) = sendEach (fun i neighbor neighborBudget =>
        n.sendSearchRequest (c.send i) requestID neighborBudget neighbor s.pattern) i neighbors
          budgetAllocation := by
  induction neighbors generalizing s i budgetAllocation with
  | nil =>
      have next : s.go n .send =
          (n, { s with deferred := requestID :: s.deferred, phase := .waiting requestID }) := by
        simp only [go, phase]
      have quiet : s.notes n .send = [] := by simp only [notes, phase]
      refine ⟨next, ?_⟩
      simp only [journal, Run.collect, List.length_nil, List.replicate, record, quiet, sendEach]
      rfl
  | cons neighbor neighbors ih =>
      cases budgetAllocation with
      | nil => cases shares
      | cons neighborBudget budgetAllocation =>
          have next : s.go n .send =
              (n, { s with phase := .sending requestID c (i + 1) neighbors budgetAllocation }) := by
            simp only [go, phase]
          have told : s.notes n .send =
              (s.request n (c.send i) requestID neighbor neighborBudget).map .sends := by
            simp only [notes, phase]
          obtain ⟨last, rest⟩ := ih
            (s := { s with phase := .sending requestID c (i + 1) neighbors budgetAllocation })
            rfl (Nat.succ.inj shares)
          refine ⟨?_, ?_⟩
          · rw [List.length_cons, List.replicate_succ, Run.run_cons, step, next]
            exact last
          · rw [List.length_cons, List.replicate_succ, journal, Run.collect, step, next, record,
              told, sent_append, sent_sends]
            exact congrArg _ rest

/-- Without interruption, an attempt does what `sendSearchRequests` does. -/
theorem attempt_sends (compile : Compile) (n : Node) {s : Ring} (c : FanOut) (requestID : GoString)
    (phase : s.phase = .attempting) (more : s.attempt < s.conf.retry.toNat)
    (others : n.peer.getNeighbors c.neighbors ≠ []) :
    let moves := .own (.attempt c requestID) ::
      List.replicate ((n.peer.getNeighbors c.neighbors).length + 1) (Move.own .send)
    ((Run.run (step compile) (n, s) moves).1, sent (journal compile n s moves)) =
        n.sendSearchRequests c requestID s.pattern s.budget.toNat ∧
      (Run.run (step compile) (n, s) moves).2.phase = .waiting requestID := by
  have some : (n.peer.getNeighbors c.neighbors).length ≠ 0 := fun zero =>
    others (List.eq_nil_of_length_eq_zero zero)
  have next : s.go n (.attempt c requestID) =
      (register n requestID,
        { s with
          phase := .sending requestID c 0 (n.peer.getNeighbors c.neighbors)
            (divideBudget c.random s.budget.toNat
              (n.peer.getNeighbors c.neighbors).length) }) := by
    simp only [go, phase, if_pos more, if_neg some]
  have told : s.notes n (.attempt c requestID) =
      [.begins requestID (n.peer.getNeighbors c.neighbors)] := by
    simp only [notes, phase, if_pos more]
  obtain ⟨last, rest⟩ := run_sends compile (register n requestID)
    (s := { s with
      phase := .sending requestID c 0 (n.peer.getNeighbors c.neighbors)
        (divideBudget c.random s.budget.toNat (n.peer.getNeighbors c.neighbors).length) })
    rfl (length_divideBudget _ _ _)
  intro moves
  have run : Run.run (step compile) (n, s) moves = (register n requestID,
      { s with deferred := requestID :: s.deferred, phase := .waiting requestID }) := by
    rw [Run.run_cons, step, next]
    exact last
  rw [run]
  refine ⟨?_, rfl⟩
  rw [journal, Run.collect, step, next, record, told, sent_append, Node.sendSearchRequests]
  dsimp only
  rw [if_neg some]
  exact Prod.ext rfl rest

/-! ## The replies in a channel -/

section Replies

variable {n : Node} {requestID : GoString}

/-- A new channel is empty. -/
theorem replies_add (n : Node) (requestID : GoString) (capacity : Nat) :
    ({ n with searchReplyChan := n.searchReplyChan.add requestID ⟨capacity, []⟩ } : Node).replies
      requestID = [] := by
  unfold Node.replies
  dsimp only
  rw [FinMap.get_add_self]

theorem replies_takeReply (n : Node) (requestID : GoString) :
    (n.takeReply requestID).replies requestID = (n.replies requestID).drop 1 := by
  unfold Node.replies Node.takeReply
  cases found : n.searchReplyChan.get requestID with
  | none =>
      dsimp only
      rw [found]
      rfl
  | some chan =>
      dsimp only
      rw [FinMap.get_add_self]

/-- Whatever the node does of its own, no reply is added. -/
theorem replies_step (n : Node) (e : Event) (requestID : GoString) :
    ((n.step e).1.replies requestID).Sublist (n.replies requestID) := by
  by_cases apart : e.channel ≠ some requestID
  · unfold Node.replies
    rw [Node.step_searchReplyChan apart]
  · rw [not_not] at apart
    cases e with
    | searchAll c own reg budget =>
        cases apart
        simp only [Node.step, Node.searchAll]
        split
        · exact .refl _
        · exact (List.sublist_nil.mpr (replies_add n requestID _)).trans (List.nil_sublist _)
    | sendSearchRequests c own reg budget =>
        cases apart
        simp only [Node.step, Node.sendSearchRequests]
        split <;>
          exact (List.sublist_nil.mpr (replies_add n requestID 50)).trans (List.nil_sublist _)
    | takeReply own =>
        cases apart
        rw [Node.step, replies_takeReply]
        exact List.drop_sublist 1 _
    | endSearch own =>
        cases apart
        have gone : (n.step (.endSearch requestID)).1.replies requestID = [] := by
          simp only [Node.step, Node.replies, FinMap.get_remove, if_true]
        rw [gone]
        exact List.nil_sublist _
    | _ => cases apart

/-- A reply registers no channel. -/
theorem handleSearchReplyMessage_unregistered {source : GoString} {msg : SearchReply}
    (unregistered : n.searchReplyChan.get requestID = none) :
    (n.handleSearchReplyMessage source msg).searchReplyChan.get requestID = none := by
  unfold Node.handleSearchReplyMessage
  dsimp only
  rw [Node.learnFiles_searchReplyChan]
  split
  · rw [Node.learnFiles_searchReplyChan, unregistered]
  · next chan here =>
    split
    · dsimp only
      rw [FinMap.get_add_of_ne, unregistered]
      rintro rfl
      rw [unregistered] at here
      cases here
    · rw [Node.learnFiles_searchReplyChan, unregistered]

/-- An input adds at most the reply it handles. -/
theorem replies_react (compile : Compile) (n : Node) (input : Input) (requestID : GoString) :
    ((n.react compile input).replies requestID).Sublist
      (n.replies requestID ++ Call.handledReplies requestID (.input input)) := by
  cases input with
  | own e => exact (replies_step n e requestID).trans (List.sublist_append_left _ _)
  | request c source msg =>
      unfold Node.replies
      rw [Node.react, Node.handleSearchRequestMessage_searchReplyChan]
      exact List.sublist_append_left _ _
  | reply source msg =>
      cases registered : n.searchReplyChan.get requestID with
      | none =>
          unfold Node.replies
          rw [Node.react, handleSearchReplyMessage_unregistered registered]
          exact List.nil_sublist _
      | some chan =>
          obtain ⟨chan', found, offered⟩ :=
            n.handleSearchReplyMessage_searchReplyChan source msg registered
          have buffer := congrArg Channel.buffer offered
          unfold Node.replies
          rw [Node.react, found, registered, Call.handledReplies]
          dsimp only
          rw [show chan'.buffer = chan'.channel.buffer from rfl, buffer]
          split
          · unfold Channel.offer
            split
            · exact .refl _
            · exact List.sublist_append_left _ _
          · exact List.sublist_append_left _ _

end Replies

/-! ## What the call returns -/

/-- The request of the attempt that is going on. -/
def Phase.current : Phase → Option GoString
  | .sending requestID _ _ _ _ => some requestID
  | .waiting requestID => some requestID
  | _ => none

/-- The replies that wait for the call. -/
def unread (n : Node) (s : Ring) : List SearchReply :=
  match s.phase.current with
  | none => []
  | some requestID => n.replies requestID

/-- The replies are to the request of an attempt. -/
def Answers (replies : List SearchReply) (request : GoString × List GoString) : Prop :=
  ∀ reply ∈ replies, reply.requestID = request.1

/-- What has been taken, and what waits, was handled before and is in its order; and what has been
taken answers the attempts, one after the other. -/
structure Grouped (h : List Note) (p : Node × Ring) : Prop where
  order : (taken h ++ p.2.unread p.1).Sublist (handled h)
  answers : ∀ requestID, p.2.phase.current = some requestID →
    ∀ reply ∈ p.1.replies requestID, reply.requestID = requestID
  last : ∀ requestID, p.2.phase.current = some requestID →
    ∃ earlier neighbors, begun h = earlier ++ [(requestID, neighbors)]
  attempts : ∃ attempts, attempts.flatten = taken h ∧ List.Forall₂ Answers attempts (begun h)

section Grouped

variable {h : List Note} {n : Node} {s : Ring}

/-- One more reply for the last attempt. -/
theorem forall₂_answers_concat {attempts : List (List SearchReply)}
    {earlier : List (GoString × List GoString)} {request : GoString × List GoString}
    {reply : SearchReply} (all : List.Forall₂ Answers attempts (earlier ++ [request]))
    (own : reply.requestID = request.1) :
    ∃ attempts', attempts'.flatten = attempts.flatten ++ [reply] ∧
      List.Forall₂ Answers attempts' (earlier ++ [request]) := by
  have front := List.forall₂_take_append attempts earlier [request] all
  have back := List.forall₂_drop_append attempts earlier [request] all
  cases split : attempts.drop earlier.length with
  | nil =>
      rw [split] at back
      cases back
  | cons replies rest =>
      rw [split] at back
      obtain ⟨here, none⟩ := List.forall₂_cons.mp back
      cases none
      have whole : attempts.flatten = (attempts.take earlier.length).flatten ++ replies := by
        conv_lhs => rw [← List.take_append_drop earlier.length attempts, split]
        rw [List.flatten_append, List.flatten_cons, List.flatten_nil, List.append_nil]
      refine ⟨attempts.take earlier.length ++ [replies ++ [reply]], ?_, ?_⟩
      · rw [whole, List.flatten_append, List.flatten_cons, List.flatten_nil, List.append_nil,
          List.append_assoc]
      · refine List.rel_append front (.cons ?_ .nil)
        intro r mem
        rcases List.mem_append.mp mem with before | now
        · exact here r before
        · rw [List.mem_singleton.mp now, own]

/-- An attempt begins. -/
theorem Grouped.begins (grouped : Grouped h (n, s)) (requestID : GoString)
    (neighbors : List GoString) :
    ∃ attempts, attempts.flatten = taken h ∧
      List.Forall₂ Answers attempts (begun h ++ [(requestID, neighbors)]) := by
  obtain ⟨attempts, all, answer⟩ := grouped.attempts
  refine ⟨attempts ++ [[]], ?_, List.rel_append answer (.cons (fun _ mem => by cases mem) .nil)⟩
  rw [List.flatten_append, all, List.flatten_cons, List.flatten_nil, List.append_nil,
    List.append_nil]

/-- The call takes a reply. -/
theorem Grouped.takes (grouped : Grouped h (n, s)) {requestID : GoString} {reply : SearchReply}
    {rest : List SearchReply} (phase : s.phase = .waiting requestID)
    (waiting : n.replies requestID = reply :: rest) :
    (taken h ++ [reply] ++ rest).Sublist (handled h) ∧
      ∃ attempts, attempts.flatten = taken h ++ [reply] ∧
        List.Forall₂ Answers attempts (begun h) := by
  have current : s.phase.current = some requestID := by
    rw [phase]
    rfl
  have own : reply.requestID = requestID := by
    refine grouped.answers requestID current reply ?_
    rw [waiting]
    exact List.mem_cons_self
  refine ⟨?_, ?_⟩
  · have order := grouped.order
    unfold unread at order
    dsimp only at order
    rw [current] at order
    dsimp only at order
    rw [waiting] at order
    rwa [List.append_assoc]
  · obtain ⟨attempts, all, answer⟩ := grouped.attempts
    obtain ⟨earlier, neighbors, begun⟩ := grouped.last requestID current
    rw [begun] at answer ⊢
    rw [← all]
    exact forall₂_answers_concat answer own

/-- No attempt is going on. -/
theorem grouped_of_idle {p : Node × Ring} (idle : p.2.phase.current = none)
    (order : (taken h).Sublist (handled h))
    (attempts : ∃ attempts, attempts.flatten = taken h ∧
      List.Forall₂ Answers attempts (begun h)) : Grouped h p := by
  refine ⟨?_, fun requestID current => ?_, fun requestID current => ?_, attempts⟩
  · rw [unread, idle, List.append_nil]
    exact order
  · rw [idle] at current
    cases current
  · rw [idle] at current
    cases current

theorem Grouped.taken_sublist {p : Node × Ring} (grouped : Grouped h p) :
    (taken h).Sublist (handled h) :=
  (List.sublist_append_left _ _).trans grouped.order

/-- The call goes on. -/
theorem Grouped.go (grouped : Grouped h (n, s)) (o : Own) :
    Grouped (h ++ s.notes n o) (s.go n o) := by
  have goes := goes n s o
  generalize s.notes n o = told at goes
  generalize s.go n o = next at goes
  have order := grouped.taken_sublist
  cases goes with
  | @begins c requestID phase more others =>
      obtain ⟨attempts, all, answer⟩ :=
        grouped.begins requestID (n.peer.getNeighbors c.neighbors)
      have none : (register n requestID).replies requestID = [] := replies_add n requestID 50
      refine ⟨?_, fun id current reply mem => ?_, fun id current => ?_, attempts, ?_, ?_⟩
      · simp only [unread, Phase.current, none, taken_append, handled_append]
        simpa [taken, handled] using order
      · cases current
        rw [none] at mem
        cases mem
      · cases current
        exact ⟨begun h, n.peer.getNeighbors c.neighbors, begun_append h _⟩
      · rw [all, taken_append]
        exact (List.append_nil _).symm
      · rw [begun_append]
        exact answer
  | @alone c requestID phase more lonely =>
      obtain ⟨attempts, all, answer⟩ := grouped.begins requestID []
      refine grouped_of_idle rfl ?_ ⟨attempts, ?_, ?_⟩
      · rw [taken_append, handled_append]
        simpa [taken, handled] using order
      · rw [all, taken_append]
        exact (List.append_nil _).symm
      · rw [begun_append]
        exact answer
  | exhausted phase last =>
      rw [List.append_nil]
      exact grouped_of_idle rfl order grouped.attempts
  | @sends requestID neighbor c i neighborBudget neighbors budgetAllocation phase =>
      have current : s.phase.current = some requestID := by
        rw [phase]
        rfl
      have same := grouped.order
      simp only [unread, current] at same
      refine ⟨?_, fun id here => ?_, fun id here => ?_, ?_⟩
      · simpa [unread, Phase.current] using same
      · exact grouped.answers id (current.trans here)
      · simpa using grouped.last id (current.trans here)
      · simpa using grouped.attempts
  | @waits requestID c i neighbors budgetAllocation phase =>
      have current : s.phase.current = some requestID := by
        rw [phase]
        rfl
      have same := grouped.order
      simp only [unread, current] at same
      rw [List.append_nil]
      refine ⟨same, fun id here => ?_, fun id here => ?_, grouped.attempts⟩
      · exact grouped.answers id (current.trans here)
      · exact grouped.last id (current.trans here)
  | @takes requestID reply rest phase waiting incomplete =>
      have current : s.phase.current = some requestID := by
        rw [phase]
        rfl
      obtain ⟨kept, attempts, all, answer⟩ := grouped.takes phase waiting
      have left : (n.takeReply requestID).replies requestID = rest := by
        rw [replies_takeReply, waiting]
        rfl
      refine ⟨?_, fun id here r mem => ?_, fun id here => ?_, attempts, ?_, ?_⟩
      · simp only [unread, current, left, taken_append, handled_append]
        simpa [taken, handled] using kept
      · have own : requestID = id := Option.some.inj (current.symm.trans here)
        subst own
        rw [left] at mem
        refine grouped.answers requestID current r ?_
        rw [waiting]
        exact List.mem_cons_of_mem reply mem
      · obtain ⟨earlier, neighbors, begins⟩ := grouped.last id here
        exact ⟨earlier, neighbors, by rw [begun_append, begins]; exact List.append_nil _⟩
      · rw [all, taken_append]
        rfl
      · rw [begun_append]
        exact (List.append_nil (begun h)).symm ▸ answer
  | @finds requestID reply rest fileInfo phase waiting complete =>
      obtain ⟨kept, attempts, all, answer⟩ := grouped.takes phase waiting
      refine grouped_of_idle rfl ?_ ⟨attempts, ?_, ?_⟩
      · rw [taken_append, handled_append]
        have first := (List.sublist_append_left _ _).trans kept
        simpa [taken, handled] using first
      · rw [all, taken_append]
        rfl
      · rw [begun_append]
        exact (List.append_nil (begun h)).symm ▸ answer
  | timesOut phase =>
      rw [List.append_nil]
      exact grouped_of_idle rfl order grouped.attempts
  | stays =>
      rw [List.append_nil]
      exact grouped

/-- The node gets an input. -/
theorem Grouped.input (grouped : Grouped h (n, s)) (compile : Compile) (input : Input) :
    Grouped (h ++ record (n, s) (.input input)) (n.react compile input, s) := by
  obtain ⟨noAttempt, -, noReply⟩ := record_input (n, s) input
  refine ⟨?_, fun requestID current reply mem => ?_, fun requestID current => ?_, ?_⟩
  · rw [taken_append, noReply, List.append_nil, handled_append]
    cases current : s.phase.current with
    | none =>
        rw [unread, current, List.append_nil]
        exact grouped.taken_sublist.trans (List.sublist_append_left _ _)
    | some requestID =>
        have same := grouped.order
        simp only [unread, current] at same ⊢
        have more := (replies_react compile n input requestID).trans
          ((handledReplies_sublist requestID (n, s) input).1.append_left _)
        refine (more.append_left (taken h)).trans ?_
        rw [← List.append_assoc]
        exact same.append_right _
  · rcases List.mem_append.mp ((replies_react compile n input requestID).subset mem) with
      before | now
    · exact grouped.answers requestID current reply before
    · exact (handledReplies_sublist requestID (n, s) input).2 reply now
  · rw [begun_append, noAttempt, List.append_nil]
    exact grouped.last requestID current
  · rw [begun_append, taken_append, noAttempt, noReply, List.append_nil, List.append_nil]
    exact grouped.attempts

end Grouped

/-- What the call has returned. -/
def Phase.result : Phase → Option (Option FileInfo)
  | .returned found => some found
  | _ => none

theorem Phase.result_eq_some_iff {phase : Phase} {found : Option FileInfo} :
    phase.result = some found ↔ phase = .returned found := by
  cases phase with
  | returned found' =>
      exact ⟨fun same => congrArg _ (Option.some.inj same), fun same => same ▸ rfl⟩
  | _ => exact ⟨fun same => (by cases same), fun same => (by cases same)⟩

/-- The file that the call returns. -/
def Phase.found : Phase → Option FileInfo
  | .returned found => found
  | _ => none

/-- How many attempts have begun.  A call that returns without a file has made all its attempts, or
its last one found no neighbors. -/
def Counted (h : List Note) (s : Ring) : Prop :=
  match s.phase with
  | .attempting => (begun h).length = s.attempt ∧ s.attempt ≤ s.conf.retry.toNat
  | .sending _ _ _ _ _ | .waiting _ =>
      (begun h).length = s.attempt + 1 ∧ s.attempt < s.conf.retry.toNat
  | .returned found =>
      (begun h).length ≤ s.conf.retry.toNat ∧ (found = none →
        (begun h).length = s.conf.retry.toNat ∨
          ∃ earlier requestID, begun h = earlier ++ [(requestID, [])])

/-- The call has counted its attempts, and it returns with the first complete file that it takes. -/
structure Progress (h : List Note) (s : Ring) : Prop where
  counted : Counted h s
  found : ((taken h).flatMap SearchReply.responses).find? FileInfo.hasAllChunks = s.phase.found

section Progress

variable {h : List Note} {n : Node} {s : Ring}

/-- The call goes on. -/
theorem Progress.go (progress : Progress h s) (o : Own) :
    Progress (h ++ s.notes n o) (s.go n o).2 := by
  have goes := goes n s o
  generalize s.notes n o = told at goes
  generalize s.go n o = next at goes
  obtain ⟨counted, found⟩ := progress
  cases goes with
  | begins phase more others =>
      rw [Counted, phase] at counted
      rw [phase] at found
      refine ⟨?_, ?_⟩
      · simpa [Counted, begun, ← counted.1] using more
      · simpa [taken, Phase.found] using found
  | alone phase more lonely =>
      rw [Counted, phase] at counted
      rw [phase] at found
      refine ⟨⟨?_, fun _ => .inr ⟨begun h, _, begun_append h _⟩⟩, ?_⟩
      · rw [begun_append, List.length_append, counted.1]
        exact more
      · simpa [taken, Phase.found, finish] using found
  | exhausted phase last =>
      rw [Counted, phase] at counted
      rw [phase] at found
      rw [List.append_nil]
      have all : s.attempt = s.conf.retry.toNat := by omega
      exact ⟨⟨by rw [counted.1]; exact counted.2, fun _ => .inl (counted.1.trans all)⟩, found⟩
  | sends phase =>
      rw [Counted, phase] at counted
      rw [phase] at found
      refine ⟨?_, ?_⟩
      · simpa [Counted] using counted
      · simpa [Phase.found] using found
  | waits phase =>
      rw [Counted, phase] at counted
      rw [phase] at found
      rw [List.append_nil]
      exact ⟨counted, found⟩
  | @takes requestID reply rest phase waiting incomplete =>
      have same := counted
      rw [Counted, phase] at same
      refine ⟨?_, ?_⟩
      · rw [Counted, phase]
        simpa [begun] using same
      · rw [phase] at found ⊢
        rw [taken_append, List.flatMap_append, List.find?_append, found]
        simpa [taken, Phase.found] using incomplete
  | @finds requestID reply rest fileInfo phase waiting complete =>
      rw [Counted, phase] at counted
      rw [phase] at found
      refine ⟨⟨?_, fun none => by cases none⟩, ?_⟩
      · rw [begun_append, List.length_append, counted.1]
        exact counted.2
      · rw [taken_append, List.flatMap_append, List.find?_append, found]
        simpa [taken, Phase.found, finish] using complete
  | timesOut phase =>
      rw [Counted, phase] at counted
      rw [phase] at found
      rw [List.append_nil]
      exact ⟨counted, found⟩
  | stays =>
      rw [List.append_nil]
      exact ⟨counted, found⟩

/-- A journal with the same attempts and the same replies taken. -/
theorem Progress.congr {h' : List Note} (progress : Progress h s) (attempts : begun h' = begun h)
    (replies : taken h' = taken h) : Progress h' s := by
  refine ⟨?_, replies.symm ▸ progress.found⟩
  have counted := progress.counted
  unfold Counted at counted ⊢
  rwa [attempts]

theorem start_progress (conf : ExpandingRing) (pattern : Regexp) :
    Progress [] (start conf pattern) := by
  refine ⟨?_, rfl⟩
  unfold Counted
  exact ⟨rfl, Nat.zero_le _⟩

end Progress

theorem go_conf (n : Node) (s : Ring) (o : Own) : (s.go n o).2.conf = s.conf := by
  have goes := goes n s o
  generalize s.notes n o = told at goes
  generalize s.go n o = next at goes
  cases goes <;> rfl

theorem run_conf (compile : Compile) (n : Node) (s : Ring) (moves : List Move) :
    (Run.run (step compile) (n, s) moves).2.conf = s.conf :=
  Run.run_invariant (I := fun p : Node × Ring => p.2.conf = s.conf) rfl
    (fun p m same => by
      cases m with
      | own o => exact (go_conf p.1 p.2 o).trans same
      | input input => exact same) moves

/-- What holds of the journal and the call after every run. -/
theorem run_grouped (compile : Compile) (n : Node) (conf : ExpandingRing) (pattern : Regexp)
    (moves : List Move) :
    Grouped (journal compile n (start conf pattern) moves)
        (Run.run (step compile) (n, start conf pattern) moves) ∧
      Progress (journal compile n (start conf pattern) moves)
        (Run.run (step compile) (n, start conf pattern) moves).2 := by
  refine Run.run_collect_invariant (I := fun h p => Grouped h p ∧ Progress h p.2)
    ⟨grouped_of_idle rfl .slnil ⟨[], rfl, .nil⟩, start_progress conf pattern⟩ ?_ moves
  rintro h ⟨n, s⟩ m ⟨grouped, progress⟩
  cases m with
  | own o => exact ⟨grouped.go o, progress.go o⟩
  | input input =>
      obtain ⟨noAttempt, -, noReply⟩ := record_input (n, s) input
      refine ⟨grouped.input compile input, progress.congr ?_ ?_⟩
      · rw [begun_append, noAttempt, List.append_nil]
      · rw [taken_append, noReply, List.append_nil]

/-- **The expanding ring.**  When `ExpandingRingSearch` returns, it has made at most as many
attempts as it may; each reply it took was handled before, once and in this order, and answers the
request of the attempt that took it; and it returns the name of the first complete file in these
replies. Without one it has made all its attempts, unless the node had no neighbors in the last. -/
theorem returns_first_complete (compile : Compile) (n : Node) (conf : ExpandingRing)
    (pattern : Regexp) (moves : List Move) (found : Option FileInfo)
    (returned : (Run.run (step compile) (n, start conf pattern) moves).2.phase.result =
      some found) :
    let h := journal compile n (start conf pattern) moves
    ∃ attempts, List.Forall₂ Answers attempts (begun h) ∧
      attempts.length ≤ conf.retry.toNat ∧
      attempts.flatten.Sublist (handled h) ∧
      (found.map FileInfo.name).getD [] = expandingRingSearch attempts ∧
      (found = none → attempts.length = conf.retry.toNat ∨
        ∃ earlier requestID, begun h = earlier ++ [(requestID, [])]) := by
  intro h
  rw [Phase.result_eq_some_iff] at returned
  obtain ⟨grouped, counted, first⟩ := run_grouped compile n conf pattern moves
  have same : (Run.run (step compile) (n, start conf pattern) moves).2.conf = conf :=
    run_conf compile n (start conf pattern) moves
  rw [Counted, returned] at counted
  dsimp only at counted
  rw [same] at counted
  rw [returned] at first
  obtain ⟨attempts, all, answer⟩ := grouped.attempts
  rw [← answer.length_eq] at counted
  refine ⟨attempts, answer, counted.1, all ▸ grouped.taken_sublist, ?_, counted.2⟩
  unfold expandingRingSearch
  rw [all, first]
  cases found <;> rfl

/-- A pattern for the samples. -/
def samplePattern : Regexp := ⟨str "file", fun name => str "file" <:+: name⟩

/-- A node with one neighbor. -/
def sampleStart : Node := sampleNode (str "A") [str "B"]

/-- A reply with a complete file. -/
def completeReply (requestID name : String) : Move :=
  .input (.reply (str "B") ⟨str requestID, [⟨str name, str "metahash", [some (str "chunk")]⟩]⟩)

/-- The reply to the first attempt comes after its timeout. -/
def lateReply : List Move :=
  [.own (.attempt sampleFanOut (str "1")), .own .send, .own .send, .own .timeout,
    .own (.attempt sampleFanOut (str "2")), completeReply "1" "file1", .own .send, .own .send,
    .own .receive, completeReply "2" "file2", .own .receive]

/-- The late reply is of no use. -/
theorem returns_lateReply :
    let h := journal sampleCompile sampleStart (start ⟨1, 2, 2⟩ samplePattern) lateReply
    ∃ attempts, List.Forall₂ Answers attempts (begun h) ∧ attempts.length ≤ 2 ∧
      attempts.flatten.Sublist (handled h) ∧ str "file2" = expandingRingSearch attempts := by
  obtain ⟨attempts, answer, most, order, name, -⟩ := returns_first_complete sampleCompile
    sampleStart ⟨1, 2, 2⟩ samplePattern lateReply
    (some ⟨str "file2", str "metahash", [some (str "chunk")]⟩) (by decide +kernel)
  exact ⟨attempts, answer, most, order, name⟩

end Ring

end Peerster.Search
