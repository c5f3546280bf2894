import Peerster.Lib.Channel
import Peerster.Search.Forwarding

/-!
# Collecting replies

The whole of `SearchAll`: it registers a channel with room for one reply from each neighbor, sends
the requests, and only then begins to take replies from the channel.  Every node that a request
reaches replies, not only the neighbors, and `handleSearchReplyMessage` does not wait: replies for
which there is no room when they come are dropped.
-/

namespace Peerster.Search

/-- Where a call of `SearchAll` is: before the send with an index, in its collecting loop, or
done. -/
inductive Phase : Type
  | sending (i : Nat)
  | collecting (collectedFilenames : FinMap GoString Unit)
  | returned (names : List GoString)

/-- The call has not come to its collecting loop. -/
def Phase.isSending : Phase → Bool
  | .sending _ => true
  | _ => false

/-- What the call has returned. -/
def Phase.result : Phase → Option (List GoString)
  | .returned names => some names
  | _ => none

theorem Phase.isSending_iff {phase : Phase} : phase.isSending = true ↔ ∃ i, phase = .sending i := by
  cases phase with
  | sending i => exact ⟨fun _ => ⟨i, rfl⟩, fun _ => rfl⟩
  | collecting collected => exact ⟨fun same => (by cases same), fun ⟨_, same⟩ => (by cases same)⟩
  | returned names => exact ⟨fun same => (by cases same), fun ⟨_, same⟩ => (by cases same)⟩

theorem Phase.result_eq_some_iff {phase : Phase} {names : List GoString} :
    phase.result = some names ↔ phase = .returned names := by
  cases phase with
  | sending i => exact ⟨fun same => (by cases same), fun same => (by cases same)⟩
  | collecting collected => exact ⟨fun same => (by cases same), fun same => (by cases same)⟩
  | returned names' => exact ⟨fun same => congrArg _ (Option.some.inj same), fun same => same ▸ rfl⟩

/-- A call of `SearchAll` on its node. -/
structure Call where
  node : Node
  c : FanOut
  requestID : GoString
  reg : Regexp
  localFilenames : List GoString
  neighbors : List GoString
  budgetAllocation : List Nat
  sent : List Sent
  phase : Phase

/-- What happens next: the call goes on in its sending loop, takes a reply in its collecting loop or
times out there, or the node gets an input. -/
inductive Move : Type
  | send
  | receive
  | timeout (order : FinMap.RangeOrder GoString Unit)
  | input (input : Input)

namespace Call

/-- `SearchAll` up to its sending loop. -/
def start (n : Node) (c : FanOut) (names : FinMap.RangeOrder GoString Bytes) (requestID : GoString)
    (reg : Regexp) (budget : Nat) : Call :=
  let localFilenames := n.getLocalFilenamesMatching names reg
  let neighbors := n.peer.getNeighbors c.neighbors
  let numNeighbors := neighbors.length
  if numNeighbors = 0 then
    ⟨n, c, requestID, reg, localFilenames, neighbors, [], [], .returned localFilenames⟩
  else
    ⟨{ n with searchReplyChan := n.searchReplyChan.add requestID ⟨numNeighbors, []⟩ }, c, requestID,
      reg, localFilenames, neighbors, divideBudget c.random budget numNeighbors, [], .sending 0⟩

/-- The replies in the channel of the call. -/
def waiting (s : Call) : List SearchReply :=
  match s.node.searchReplyChan.get s.requestID with
  | none => []
  | some chan => chan.buffer

/-- One more name, or more names, in `collectedFilenames`. -/
def collect (names : List GoString) (collectedFilenames : FinMap GoString Unit) :
    FinMap GoString Unit :=
  names.foldl (fun m name => m.add name ()) collectedFilenames

/-- The send of the loop with an index. -/
def request (s : Call) (i : Nat) (neighbor : GoString) (neighborBudget : Nat) : List Sent :=
  if neighborBudget > 0 then
    (s.node.sendSearchRequest (s.c.send i) s.requestID neighborBudget neighbor s.reg).toList
  else []

/-- One move.  The timer of an iteration does not fire when there is a reply in the channel at once:
the timeout is greater than zero. -/
def step (compile : Compile) (s : Call) : Move → Call
  | .send =>
      match s.phase with
      | .sending i =>
          match s.neighbors[i]?, s.budgetAllocation[i]? with
          | some neighbor, some neighborBudget =>
              { s with
                sent := s.sent ++ s.request i neighbor neighborBudget
                phase := .sending (i + 1) }
          | _, _ => { s with phase := .collecting (collect s.localFilenames .empty) }
      | _ => s
  | .receive =>
      match s.phase, s.waiting with
      | .collecting collectedFilenames, reply :: _ =>
          { s with
            node := s.node.takeReply s.requestID
            phase := .collecting
              (collect (reply.responses.map FileInfo.name) collectedFilenames) }
      | _, _ => s
  | .timeout order =>
      match s.phase, s.waiting with
      | .collecting collectedFilenames, [] =>
          { s with
            node := { s.node with
              searchReplyChan := s.node.searchReplyChan.remove s.requestID }
            phase := .returned (order.list collectedFilenames) }
      | _, _ => s
  | .input input => { s with node := s.node.react compile input }

/-- A reply for the call that a move handles. -/
def handledReplies (requestID : GoString) : Move → List SearchReply
  | .input (.reply _ msg) => if msg.requestID = requestID then [msg] else []
  | _ => []

end Call

/-- The request whose channel a step of a node of its own registers, reads or removes. -/
def Event.channel : Event → Option GoString
  | .searchAll _ requestID _ _ => some requestID
  | .sendSearchRequests _ requestID _ _ => some requestID
  | .takeReply requestID => some requestID
  | .endSearch requestID => some requestID
  | _ => none

/-- The move leaves the channel of a request to it: no other search has its ID. -/
def Move.Apart (requestID : GoString) : Move → Prop
  | .input (.own e) => e.channel ≠ some requestID
  | _ => True

/-! ## The channel of the call -/

/-- A channel of replies as a channel. -/
def ReplyChannel.channel (chan : ReplyChannel) : Channel SearchReply :=
  ⟨chan.capacity, chan.buffer, false⟩

namespace Node

section Channel

variable {n : Node} {requestID : GoString}

theorem learnFiles_searchReplyChan (source : GoString) (files : List FileInfo) (n : Node) :
    (files.foldl (learnFile source) n).searchReplyChan = n.searchReplyChan := by
  induction files generalizing n with
  | nil => rfl
  | cons file files ih => rw [List.foldl_cons, ih]; rfl

theorem handleSearchRequestMessage_searchReplyChan (compile : Compile) (n : Node)
    (c : RequestChoice) (source : GoString) (msg : SearchRequest) :
    (n.handleSearchRequestMessage compile c source msg).node.searchReplyChan =
      n.searchReplyChan := by
  unfold handleSearchRequestMessage
  split
  · rfl
  · dsimp only
    split
    · rfl
    · split <;> rfl

theorem step_searchReplyChan {e : Event} (apart : e.channel ≠ some requestID) :
    (n.step e).1.searchReplyChan.get requestID = n.searchReplyChan.get requestID := by
  have other : ∀ {own : GoString}, some own ≠ some requestID → requestID ≠ own := by
    rintro own ne rfl
    exact ne rfl
  cases e with
  | searchAll c own reg budget =>
      simp only [Node.step, searchAll]
      split
      · rfl
      · exact FinMap.get_add_of_ne _ _ (other apart)
  | sendSearchRequests c own reg budget =>
      simp only [Node.step, sendSearchRequests]
      split <;> exact FinMap.get_add_of_ne _ _ (other apart)
  | takeReply own =>
      simp only [Node.step, takeReply]
      split
      · rfl
      · exact FinMap.get_add_of_ne _ _ (other apart)
  | endSearch own => exact FinMap.get_remove_of_ne _ (other apart)
  | tag name metahash =>
      simp only [Node.step, tag]
      split
      · rfl
      · split <;> rfl
  | _ => rfl

/-- A reply is offered to the channel of its request. -/
theorem handleSearchReplyMessage_searchReplyChan (n : Node) (source : GoString) (msg : SearchReply)
    {chan : ReplyChannel} (registered : n.searchReplyChan.get requestID = some chan) :
    ∃ chan', (n.handleSearchReplyMessage source msg).searchReplyChan.get requestID = some chan' ∧
      chan'.channel =
        if msg.requestID = requestID then chan.channel.offer msg else chan.channel := by
  unfold handleSearchReplyMessage
  dsimp only
  rw [learnFiles_searchReplyChan]
  by_cases own : msg.requestID = requestID
  · subst own
    rw [registered, if_pos rfl]
    dsimp only
    unfold Channel.offer
    by_cases room : chan.buffer.length < chan.capacity
    · rw [if_pos room, if_pos (show chan.channel.buffer.length < chan.channel.capacity from room)]
      exact ⟨_, FinMap.get_add_self _ _ _, rfl⟩
    · rw [if_neg room, if_neg (show ¬ chan.channel.buffer.length < chan.channel.capacity from room)]
      refine ⟨chan, ?_, rfl⟩
      rw [learnFiles_searchReplyChan, registered]
  · rw [if_neg own]
    refine ⟨chan, ?_, rfl⟩
    split
    · rw [learnFiles_searchReplyChan, registered]
    · split
      · dsimp only
        rw [FinMap.get_add_of_ne _ _ (Ne.symm own), registered]
      · rw [learnFiles_searchReplyChan, registered]

/-- An input offers its reply, if any, to the channel of a request. -/
theorem react_searchReplyChan (compile : Compile) (n : Node) {input : Input} {chan : ReplyChannel}
    (apart : (Move.input input).Apart requestID)
    (registered : n.searchReplyChan.get requestID = some chan) :
    ∃ chan', (n.react compile input).searchReplyChan.get requestID = some chan' ∧
      chan'.channel =
        (Call.handledReplies requestID (.input input)).foldl Channel.offer chan.channel := by
  cases input with
  | own e => exact ⟨chan, (step_searchReplyChan apart).trans registered, rfl⟩
  | request c source msg =>
      refine ⟨chan, ?_, rfl⟩
      rw [react, handleSearchRequestMessage_searchReplyChan, registered]
  | reply source msg =>
      obtain ⟨chan', found, offered⟩ :=
        n.handleSearchReplyMessage_searchReplyChan source msg registered
      refine ⟨chan', found, ?_⟩
      rw [offered, Call.handledReplies]
      split <;> rfl

end Channel

end Node

/-! ## What a move does -/

namespace Call

section Moves

variable {compile : Compile} {s : Call} {m : Move} {moves : List Move} {name : GoString}
  {replies : List SearchReply}

/-- A move of the call goes on in its sending loop, ends it, collects a reply or returns; an input
changes the node alone; a move that is not possible changes nothing. -/
theorem step_cases (compile : Compile) (s : Call) (m : Move) :
    (∃ i sent, s.phase = .sending i ∧ i < s.neighbors.length ∧ m = .send ∧
      s.step compile m = { s with sent, phase := .sending (i + 1) }) ∨
    (∃ i, s.phase = .sending i ∧ m = .send ∧
      s.step compile m = { s with phase := .collecting (collect s.localFilenames .empty) }) ∨
    (∃ collected reply rest, s.phase = .collecting collected ∧ s.waiting = reply :: rest ∧
      m = .receive ∧ s.step compile m =
        { s with
          node := s.node.takeReply s.requestID
          phase := .collecting (collect (reply.responses.map FileInfo.name) collected) }) ∨
    (∃ collected order, s.phase = .collecting collected ∧ s.waiting = [] ∧ m = .timeout order ∧
      s.step compile m =
        { s with
          node := { s.node with searchReplyChan := s.node.searchReplyChan.remove s.requestID }
          phase := .returned (order.list collected) }) ∨
    (∃ input, m = .input input ∧
      s.step compile m = { s with node := s.node.react compile input }) ∨
    (∀ input, m ≠ .input input) ∧ s.step compile m = s := by
  cases m with
  | send =>
      cases phase : s.phase with
      | sending i =>
          by_cases more : ∃ neighbor budget, s.neighbors[i]? = some neighbor ∧
              s.budgetAllocation[i]? = some budget
          · obtain ⟨neighbor, budget, here, share⟩ := more
            obtain ⟨inside, -⟩ := List.getElem?_eq_some_iff.mp here
            refine .inl ⟨i, s.sent ++ s.request i neighbor budget, rfl, inside, rfl, ?_⟩
            simp only [step, phase, here, share]
          · refine .inr (.inl ⟨i, rfl, rfl, ?_⟩)
            simp only [step, phase]
            split
            · next neighbor budget here share => exact (more ⟨neighbor, budget, here, share⟩).elim
            · rfl
      | collecting collected =>
          refine .inr (.inr (.inr (.inr (.inr ⟨fun input same => ?_, ?_⟩))))
          · cases same
          · simp only [step, phase]
      | returned names =>
          refine .inr (.inr (.inr (.inr (.inr ⟨fun input same => ?_, ?_⟩))))
          · cases same
          · simp only [step, phase]
  | receive =>
      by_cases takes : ∃ collected reply rest, s.phase = .collecting collected ∧
          s.waiting = reply :: rest
      · obtain ⟨collected, reply, rest, phase, waiting⟩ := takes
        refine .inr (.inr (.inl ⟨collected, reply, rest, phase, waiting, rfl, ?_⟩))
        simp only [step, phase, waiting]
      · refine .inr (.inr (.inr (.inr (.inr ⟨fun input same => ?_, ?_⟩))))
        · cases same
        · simp only [step]
          split
          · next collected reply rest phase waiting =>
            exact (takes ⟨collected, reply, rest, phase, waiting⟩).elim
          · rfl
  | timeout order =>
      by_cases ends : ∃ collected, s.phase = .collecting collected ∧ s.waiting = []
      · obtain ⟨collected, phase, waiting⟩ := ends
        refine .inr (.inr (.inr (.inl ⟨collected, order, phase, waiting, rfl, ?_⟩)))
        simp only [step, phase, waiting]
      · refine .inr (.inr (.inr (.inr (.inr ⟨fun input same => ?_, ?_⟩))))
        · cases same
        · simp only [step]
          split
          · next collected phase waiting => exact (ends ⟨collected, phase, waiting⟩).elim
          · rfl
  | input input => exact .inr (.inr (.inr (.inr (.inl ⟨input, rfl, rfl⟩))))

/-- The ID, the local names and the neighbors of a call stay. -/
theorem step_fixed (compile : Compile) (s : Call) (m : Move) :
    (s.step compile m).requestID = s.requestID ∧
      (s.step compile m).localFilenames = s.localFilenames ∧
      (s.step compile m).neighbors = s.neighbors := by
  rcases step_cases compile s m with ⟨i, sent, -, -, -, next⟩ | ⟨i, -, -, next⟩ |
    ⟨collected, reply, rest, -, -, -, next⟩ | ⟨collected, order, -, -, -, next⟩ |
    ⟨input, -, next⟩ | ⟨-, next⟩
  all_goals
    rw [next]
    exact ⟨rfl, rfl, rfl⟩

/-! ## Before the collecting loop -/

/-- While the call sends, its channel has room for one reply from each neighbor, and holds the first
of the replies that have been handled. -/
def Registered (s : Call) (replies : List SearchReply) : Prop :=
  ∀ i, s.phase = .sending i → ∃ chan, s.node.searchReplyChan.get s.requestID = some chan ∧
    chan.capacity = s.neighbors.length ∧ chan.buffer = replies.take s.neighbors.length

theorem Registered.step (compile : Compile) (registered : s.Registered replies)
    (apart : m.Apart s.requestID) :
    (s.step compile m).Registered (replies ++ handledReplies s.requestID m) := by
  rcases step_cases compile s m with ⟨i, sent, phase, -, rfl, next⟩ | ⟨i, phase, rfl, next⟩ |
    ⟨collected, reply', rest, phase, -, rfl, next⟩ | ⟨collected, order, phase, -, rfl, next⟩ |
    ⟨input, rfl, next⟩ | ⟨apart', next⟩
  · intro j _
    rw [next, show handledReplies s.requestID .send = [] from rfl, List.append_nil]
    exact registered i phase
  · intro j sending
    rw [next] at sending
    cases sending
  · intro j sending
    rw [next] at sending
    cases sending
  · intro j sending
    rw [next] at sending
    cases sending
  · intro j sending
    rw [next] at sending ⊢
    obtain ⟨chan, found, capacity, buffer⟩ := registered j sending
    obtain ⟨chan', found', offered⟩ := s.node.react_searchReplyChan compile apart found
    refine ⟨chan', found', ?_⟩
    have room := congrArg Channel.capacity offered
    have kept := congrArg Channel.buffer offered
    rw [Channel.foldl_offer_capacity] at room
    rw [← capacity] at buffer ⊢
    rw [Channel.foldl_offer_buffer (c := chan.channel) buffer] at kept
    exact ⟨room, kept⟩
  · rw [next]
    have none : handledReplies s.requestID m = [] := by
      cases m with
      | input input => exact (apart' input rfl).elim
      | _ => rfl
    rw [none, List.append_nil]
    exact registered

theorem Registered.run (registered : s.Registered replies)
    (apart : ∀ m ∈ moves, m.Apart s.requestID) :
    (Run.run (Call.step compile) s moves).Registered
      (replies ++ moves.flatMap (handledReplies s.requestID)) := by
  induction moves generalizing s replies with
  | nil =>
      rw [List.flatMap_nil, List.append_nil]
      exact registered
  | cons m moves ih =>
      obtain ⟨first, later⟩ := List.forall_mem_cons.mp apart
      have same := (step_fixed compile s m).1
      rw [List.flatMap_cons, ← List.append_assoc, Run.run_cons]
      have next := ih (registered.step compile first) (by rw [same]; exact later)
      rw [same] at next
      exact next

/-! ## The names of the call -/

/-- The names in the replies that wait in the channel. -/
def inChannel (s : Call) : List GoString :=
  s.waiting.flatMap fun reply => reply.responses.map FileInfo.name

/-- The call has found a name. -/
def Has (s : Call) (name : GoString) : Prop :=
  match s.phase with
  | .sending _ => name ∈ s.localFilenames ∨ name ∈ s.inChannel
  | .collecting collected => name ∈ collected.keys ∨ name ∈ s.inChannel
  | .returned names => name ∈ names

theorem mem_collect {names : List GoString} {collected : FinMap GoString Unit} :
    name ∈ (collect names collected).keys ↔ name ∈ names ∨ name ∈ collected.keys := by
  induction names generalizing collected with
  | nil => simp [collect]
  | cons first names ih =>
      have rest := @ih (collected.add first ())
      rw [collect] at rest
      rw [collect, List.foldl_cons, rest, List.mem_cons]
      have added : name ∈ (collected.add first ()).keys ↔ name = first ∨ name ∈ collected.keys :=
        Finset.mem_insert
      rw [added]
      tauto

theorem waiting_takeReply (s : Call) (phase : Phase) :
    ({ s with node := s.node.takeReply s.requestID, phase } : Call).waiting = s.waiting.drop 1 := by
  unfold waiting Node.takeReply
  dsimp only
  cases found : s.node.searchReplyChan.get s.requestID with
  | none =>
      dsimp only
      rw [found]
      rfl
  | some chan =>
      dsimp only
      rw [FinMap.get_add_self]

/-- The moves of the call itself neither lose nor find a name. -/
theorem has_step_iff (own : ∀ input, m ≠ .input input) :
    (s.step compile m).Has name ↔ s.Has name := by
  rcases step_cases compile s m with ⟨i, sent, phase, -, rfl, next⟩ | ⟨i, phase, rfl, next⟩ |
    ⟨collected, reply, rest, phase, waiting, rfl, next⟩ |
    ⟨collected, order, phase, waiting, rfl, next⟩ | ⟨input, rfl, next⟩ | ⟨-, next⟩
  · rw [next]
    simp only [Has, phase]
    rfl
  · rw [next]
    simp only [Has, phase, mem_collect]
    have none : name ∉ (FinMap.empty : FinMap GoString Unit).keys := Finset.notMem_empty name
    rw [or_iff_left none]
    rfl
  · rw [next]
    simp only [Has, phase, mem_collect, inChannel, waiting_takeReply]
    rw [waiting, List.drop_one, List.tail_cons, List.flatMap_cons, List.mem_append]
    tauto
  · rw [next]
    simp only [Has, phase, inChannel, waiting, List.flatMap_nil, order.mem]
    exact (or_iff_left List.not_mem_nil).symm
  · exact (own input rfl).elim
  · rw [next]

/-- An input loses no name. -/
theorem Has.input {input : Input} (has : s.Has name)
    (apart : (Move.input input).Apart s.requestID) :
    (s.step compile (.input input)).Has name := by
  have more : s.inChannel ⊆ (s.step compile (.input input)).inChannel := by
    intro name found
    obtain ⟨reply, waits, named⟩ := List.mem_flatMap.mp found
    refine List.mem_flatMap.mpr ⟨reply, ?_, named⟩
    unfold waiting at waits ⊢
    cases here : s.node.searchReplyChan.get s.requestID with
    | none =>
        rw [here] at waits
        cases waits
    | some chan =>
        rw [here] at waits
        obtain ⟨chan', found', offered⟩ := s.node.react_searchReplyChan compile apart here
        have kept := Channel.buffer_subset_foldl_offer chan.channel
          (Call.handledReplies s.requestID (.input input)) waits
        rw [← offered] at kept
        simp only [step, found']
        exact kept
  have same : (s.step compile (.input input)).phase = s.phase := rfl
  unfold Has at has ⊢
  rw [same]
  cases phase : s.phase with
  | sending i =>
      rw [phase] at has
      exact has.imp_right fun mem => more mem
  | collecting collected =>
      rw [phase] at has
      exact has.imp_right fun mem => more mem
  | returned names =>
      rw [phase] at has
      exact has

/-- No move loses a name. -/
theorem Has.run (compile : Compile) (has : s.Has name) (apart : ∀ m ∈ moves, m.Apart s.requestID) :
    (Run.run (Call.step compile) s moves).Has name := by
  induction moves generalizing s with
  | nil => exact has
  | cons m moves ih =>
      obtain ⟨first, later⟩ := List.forall_mem_cons.mp apart
      refine ih ?_ (by rw [(step_fixed compile s m).1]; exact later)
      cases m with
      | input input => exact has.input first
      | send => exact (has_step_iff fun _ same => by cases same).mpr has
      | receive => exact (has_step_iff fun _ same => by cases same).mpr has
      | timeout order => exact (has_step_iff fun _ same => by cases same).mpr has

theorem has_run_iff (own : ∀ m ∈ moves, ∀ input, m ≠ .input input) :
    (Run.run (Call.step compile) s moves).Has name ↔ s.Has name := by
  induction moves generalizing s with
  | nil => rfl
  | cons m moves ih =>
      obtain ⟨first, later⟩ := List.forall_mem_cons.mp own
      exact (ih later).trans (has_step_iff first)

theorem run_fixed (compile : Compile) (s : Call) (moves : List Move) :
    (Run.run (Call.step compile) s moves).requestID = s.requestID ∧
      (Run.run (Call.step compile) s moves).localFilenames = s.localFilenames ∧
      (Run.run (Call.step compile) s moves).neighbors = s.neighbors :=
  Run.run_invariant (I := fun s' : Call => s'.requestID = s.requestID ∧
    s'.localFilenames = s.localFilenames ∧ s'.neighbors = s.neighbors) ⟨rfl, rfl, rfl⟩
    (fun s' m same => by
      obtain ⟨id, names, neighbors⟩ := step_fixed compile s' m
      rw [id, names, neighbors]
      exact same) moves

/-! ## The call returns -/

/-- The moves of the call itself, one after the other, until it returns. -/
def Returns (compile : Compile) (s : Call) : Prop :=
  ∃ moves names, (∀ m ∈ moves, ∀ input, m ≠ .input input) ∧
    (Run.run (step compile) s moves).phase = .returned names

theorem Returns.cons (own : ∀ input, m ≠ .input input) (rest : (s.step compile m).Returns compile) :
    s.Returns compile := by
  obtain ⟨moves, names, others, returns⟩ := rest
  exact ⟨m :: moves, names, List.forall_mem_cons.mpr ⟨own, others⟩, returns⟩

/-- A call in its collecting loop takes the replies that wait, and then times out. -/
theorem returns_of_collecting {collected : FinMap GoString Unit}
    (phase : s.phase = .collecting collected) : s.Returns compile := by
  induction waiting : s.waiting generalizing s collected with
  | nil =>
      refine ⟨[.timeout .sorted], FinMap.RangeOrder.sorted.list collected, ?_, ?_⟩
      · intro m mem input same
        rw [List.mem_singleton.mp mem] at same
        cases same
      · simp only [Run.run_cons, Run.run_nil, step, phase, waiting]
  | cons reply rest ih =>
      have next : s.step compile .receive =
          { s with
            node := s.node.takeReply s.requestID
            phase := .collecting (collect (reply.responses.map FileInfo.name) collected) } := by
        simp only [step, phase, waiting]
      refine Returns.cons (m := .receive) (fun _ same => by cases same) ?_
      rw [next]
      refine ih rfl ?_
      rw [waiting_takeReply, waiting]
      rfl

theorem returns_of_sending (compile : Compile) {i : Nat} (phase : s.phase = .sending i) :
    s.Returns compile := by
  induction left : s.neighbors.length - i using Nat.strong_induction_on generalizing s i with
  | _ left ih =>
      refine Returns.cons (m := .send) (fun _ same => by cases same) ?_
      rcases step_cases compile s .send with ⟨j, sent, phase', inside, -, next⟩ |
        ⟨j, -, -, next⟩ | ⟨_, _, _, phase', -⟩ | ⟨_, _, phase', -⟩ | ⟨input, same, -⟩ | ⟨-, next⟩
      · rw [phase] at phase'
        cases phase'
        rw [next]
        exact ih (s.neighbors.length - (i + 1)) (by omega) rfl rfl
      · rw [next]
        exact returns_of_collecting rfl
      · rw [phase] at phase'
        cases phase'
      · rw [phase] at phase'
        cases phase'
      · cases same
      · have stays := congrArg Call.phase next
        simp only [step, phase] at stays
        split at stays
        · have index := Phase.sending.inj stays
          omega
        · cases stays

end Moves

/-- The sends of the loop, one after the other. -/
theorem run_sends (compile : Compile) {s : Call} {i : Nat} (phase : s.phase = .sending i)
    (shares : s.budgetAllocation.length = s.neighbors.length) (within : i ≤ s.neighbors.length) :
    Run.run (step compile) s (List.replicate (s.neighbors.length - i) .send) =
      { s with
        sent := s.sent ++ sendEach (fun i neighbor neighborBudget => s.node.sendSearchRequest
          (s.c.send i) s.requestID neighborBudget neighbor s.reg) i (s.neighbors.drop i)
            (s.budgetAllocation.drop i)
        phase := .sending s.neighbors.length } := by
  induction more : s.neighbors.length - i generalizing s i with
  | zero =>
      have last : i = s.neighbors.length := by omega
      subst last
      rw [List.drop_length, ← shares, List.drop_length, sendEach, List.append_nil, shares, ← phase]
      · rfl
      · intro _ _ _ _ same
        cases same
  | succ left ih =>
      have inside : i < s.neighbors.length := by omega
      have inside' : i < s.budgetAllocation.length := by omega
      have next : s.step compile .send =
          { s with
            sent := s.sent ++ s.request i s.neighbors[i] s.budgetAllocation[i]
            phase := .sending (i + 1) } := by
        simp only [step, phase, List.getElem?_eq_getElem inside, List.getElem?_eq_getElem inside']
      have rest := ih (s := s.step compile .send) (i := i + 1) (by rw [next])
        (by rw [next]; exact shares) (by rw [next]; exact inside)
        (by rw [next]; show s.neighbors.length - (i + 1) = left; omega)
      rw [List.replicate_succ, Run.run_cons, rest, next, List.drop_eq_getElem_cons inside,
        List.drop_eq_getElem_cons inside', sendEach, ← List.append_assoc]
      rfl

/-- Without other moves in between, the loop sends what `searchAll` sends. -/
theorem start_sends (compile : Compile) (n : Node) (c : FanOut)
    (names : FinMap.RangeOrder GoString Bytes) (requestID : GoString) (reg : Regexp)
    (budget : Nat) :
    let s := Run.run (step compile) (start n c names requestID reg budget)
      (List.replicate (n.peer.getNeighbors c.neighbors).length .send)
    (s.node, s.sent) = n.searchAll c requestID reg budget := by
  intro s
  by_cases none : (n.peer.getNeighbors c.neighbors).length = 0
  · simp only [s, none, start, Node.searchAll, if_true, List.replicate_zero, Run.run_nil]
  · have started : start n c names requestID reg budget =
        ⟨{ n with
            searchReplyChan := n.searchReplyChan.add requestID
              ⟨(n.peer.getNeighbors c.neighbors).length, []⟩ }, c, requestID, reg,
          n.getLocalFilenamesMatching names reg, n.peer.getNeighbors c.neighbors,
          divideBudget c.random budget (n.peer.getNeighbors c.neighbors).length, [],
          .sending 0⟩ := by
      unfold start
      exact if_neg none
    have sends := run_sends compile (s := start n c names requestID reg budget) (i := 0)
      (by rw [started]) (by rw [started]; exact length_divideBudget _ _ _) (Nat.zero_le _)
    rw [started] at sends
    simp only [s, started]
    rw [Nat.sub_zero] at sends
    rw [sends, Node.searchAll, if_neg none]
    rfl

/-! ## Lost replies -/

/-- Every name in a reply for the call that was handled in the moves so far is in the list that the
call returns, whatever comes later. -/
def LosesNothing (compile : Compile) (s : Call) (before : List Move) : Prop :=
  ∀ later names, (∀ m ∈ later, m.Apart s.requestID) →
    (Run.run (step compile) s (before ++ later)).phase.result = some names →
      ∀ reply ∈ before.flatMap (handledReplies s.requestID),
        ∀ file ∈ reply.responses, file.name ∈ names

/-- A name is known to the node itself, or in one of the replies. -/
def Found (s : Call) (replies : List SearchReply) (name : GoString) : Prop :=
  name ∈ s.localFilenames ∨ ∃ reply ∈ replies, name ∈ reply.responses.map FileInfo.name

instance (s : Call) (replies : List SearchReply) (name : GoString) :
    Decidable (s.Found replies name) :=
  inferInstanceAs (Decidable (_ ∨ _))

section Lost

variable {compile : Compile} {s : Call} {before : List Move} {name : GoString}

/-- While the call sends, it has found the names of as many replies as it has neighbors. -/
theorem has_run_before_iff (registered : s.Registered [])
    (apart : ∀ m ∈ before, m.Apart s.requestID) {i : Nat}
    (sending : (Run.run (step compile) s before).phase = .sending i) :
    (Run.run (step compile) s before).Has name ↔
      s.Found ((before.flatMap (handledReplies s.requestID)).take s.neighbors.length) name := by
  obtain ⟨id, names, neighbors⟩ := run_fixed compile s before
  obtain ⟨chan, found, -, buffer⟩ := registered.run apart i sending
  have waits : (Run.run (step compile) s before).waiting =
      (before.flatMap (handledReplies s.requestID)).take s.neighbors.length := by
    rw [waiting, found]
    exact buffer.trans (by rw [neighbors, List.nil_append])
  simp only [Has, sending, Found, inChannel, waits, names, List.mem_flatMap]

/-- A call loses nothing exactly when the replies that do not fit say nothing new. -/
theorem losesNothing_iff_found (registered : s.Registered [])
    (apart : ∀ m ∈ before, m.Apart s.requestID) {i : Nat}
    (sending : (Run.run (step compile) s before).phase = .sending i) :
    s.LosesNothing compile before ↔
      ∀ reply ∈ (before.flatMap (handledReplies s.requestID)).drop s.neighbors.length,
        ∀ file ∈ reply.responses,
          s.Found ((before.flatMap (Call.handledReplies s.requestID)).take s.neighbors.length)
            file.name := by
  have id := (run_fixed compile s before).1
  constructor
  · intro complete reply dropped file mem
    obtain ⟨later, names, own, returns⟩ := returns_of_sending compile sending
    have apart' : ∀ m ∈ later, m.Apart s.requestID := by
      intro m inside
      cases m with
      | input input => exact (own _ inside input rfl).elim
      | _ => trivial
    have all : (Run.run (step compile) s (before ++ later)).phase.result = some names := by
      rw [Run.run_append]
      exact Phase.result_eq_some_iff.mpr returns
    have listed := complete later names apart' all reply (List.mem_of_mem_drop dropped) file mem
    have has : (Run.run (step compile) (Run.run (step compile) s before) later).Has file.name := by
      simp only [Has, returns]
      exact listed
    exact (has_run_before_iff registered apart sending).mp ((has_run_iff own).mp has)
  · intro found later names apart' returns reply handled file mem
    have here : (Run.run (step compile) s before).Has file.name := by
      rw [has_run_before_iff registered apart sending]
      rw [← List.take_append_drop s.neighbors.length
        (before.flatMap (Call.handledReplies s.requestID))] at handled
      rcases List.mem_append.mp handled with kept | dropped
      · exact .inr ⟨reply, kept, List.mem_map_of_mem mem⟩
      · exact found reply dropped file mem
    have listed := here.run compile (by rw [id]; exact apart')
    rw [← Run.run_append] at listed
    simpa only [Has, Phase.result_eq_some_iff.mp returns] using listed

end Lost

theorem start_registered (n : Node) (c : FanOut) (names : FinMap.RangeOrder GoString Bytes)
    (requestID : GoString) (reg : Regexp) (budget : Nat) :
    (start n c names requestID reg budget).Registered [] := by
  intro i sending
  unfold start at sending ⊢
  dsimp only at sending ⊢
  split at sending
  · cases sending
  · next some =>
    rw [if_neg some]
    exact ⟨_, FinMap.get_add_self _ _ _, rfl, (List.take_nil).symm⟩

/-- **The replies of a search.**  Of the replies that are handled before the collecting loop of
`SearchAll`, none is lost if and only if those beyond the first, one for each neighbor, say nothing
that the others and the node itself do not. -/
theorem losesNothing_iff (compile : Compile) (n : Node) (c : FanOut)
    (names : FinMap.RangeOrder GoString Bytes) (requestID : GoString) (reg : Regexp) (budget : Nat)
    {before : List Move} (apart : ∀ m ∈ before, m.Apart requestID)
    (sending : (Run.run (step compile) (start n c names requestID reg budget)
      before).phase.isSending = true) :
    (start n c names requestID reg budget).LosesNothing compile before ↔
      ∀ reply ∈ (before.flatMap (handledReplies requestID)).drop
          (n.peer.getNeighbors c.neighbors).length,
        ∀ file ∈ reply.responses, file.name ∈ n.getLocalFilenamesMatching names reg ∨
          ∃ kept ∈ (before.flatMap (Call.handledReplies requestID)).take
              (n.peer.getNeighbors c.neighbors).length,
            file.name ∈ kept.responses.map FileInfo.name := by
  obtain ⟨i, sending⟩ := Phase.isSending_iff.mp sending
  have fields : (start n c names requestID reg budget).requestID = requestID ∧
      (start n c names requestID reg budget).localFilenames =
        n.getLocalFilenamesMatching names reg ∧
      (start n c names requestID reg budget).neighbors = n.peer.getNeighbors c.neighbors := by
    unfold start
    dsimp only
    split <;> exact ⟨rfl, rfl, rfl⟩
  obtain ⟨id, names', neighbors⟩ := fields
  have general := losesNothing_iff_found (start_registered n c names requestID reg budget)
    (by rw [id]; exact apart) sending
  simp only [Found, id, names', neighbors] at general
  exact general

/-! ## One neighbor -/

/-- A node with one neighbor searches with a budget for two nodes. -/
def oneNeighbor : Call :=
  start (sampleNode (str "127.0.0.1:1") [str "127.0.0.1:2"]) sampleFanOut .sorted (str "search")
    ⟨str "file", fun name => str "file" <:+: name⟩ 2

/-- A reply with one file. -/
def replyWith (source name : String) : Move :=
  .input (.reply (str source) ⟨str "search", [⟨str name, str "metahash", []⟩]⟩)

/-- The neighbor alone replies before the collecting loop. -/
theorem oneNeighbor_oneReply :
    oneNeighbor.LosesNothing sampleCompile [.send, replyWith "127.0.0.1:2" "file1"] := by
  refine (losesNothing_iff sampleCompile _ sampleFanOut .sorted (str "search") _ 2 ?_ ?_).mpr ?_
  · intro m mem
    rcases List.mem_cons.mp mem with rfl | mem
    · trivial
    · rw [List.mem_singleton.mp mem]
      trivial
  · decide +kernel
  · decide +kernel

/-- The neighbor passes the request on, and its own neighbor replies too: there is room for one of
the replies. -/
theorem oneNeighbor_twoReplies :
    let before := [.send, replyWith "127.0.0.1:2" "file1", replyWith "127.0.0.1:3" "file2"]
    let later := [Move.send, .receive, .timeout .sorted]
    (Run.run (step sampleCompile) oneNeighbor before).phase.isSending = true ∧
      (Run.run (step sampleCompile) oneNeighbor (before ++ later)).phase.result =
        some [str "file1"] ∧
      ¬ oneNeighbor.LosesNothing sampleCompile before := by
  intro before later
  have returned : (Run.run (step sampleCompile) oneNeighbor (before ++ later)).phase.result =
      some [str "file1"] := by
    decide +kernel
  refine ⟨by decide +kernel, returned, fun complete => ?_⟩
  have apart : ∀ m ∈ later, m.Apart oneNeighbor.requestID :=
    List.forall_mem_cons.mpr ⟨trivial, List.forall_mem_cons.mpr ⟨trivial,
      List.forall_mem_cons.mpr ⟨trivial, fun _ mem => (by cases mem)⟩⟩⟩
  have listed := complete later _ apart returned
    ⟨str "search", [⟨str "file2", str "metahash", []⟩]⟩ (by decide +kernel) _ List.mem_cons_self
  exact absurd listed (by decide +kernel)

end Call

end Peerster.Search
