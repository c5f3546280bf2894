import Peerster.Search.Handlers
import Peerster.Lib.Run

/-!
# Forwarding a request once

`handleSearchRequestMessage` forwards a request first and notes it as handled last.  Between the two
it may panic on a pattern that does not compile, and sending the reply may fail; then a second copy
of the request is forwarded again.  A node forwards each request at most once exactly when of every
request of which it gets a second copy the first copy was handled to the end (`forwardsOnce_iff`).
-/

namespace Peerster.Search

/-- Something that happens at a node: a step of its own, or a message that it receives. -/
inductive Input : Type
  | own (e : Event)
  | request (c : RequestChoice) (source : GoString) (msg : SearchRequest)
  | reply (source : GoString) (msg : SearchReply)

/-- The pattern of a request compiles, and its reply is sent. -/
def Completes (compile : Compile) (c : RequestChoice) (msg : SearchRequest) : Prop :=
  (compile msg.pattern).isOk ∧ c.reply.marshalError = none ∧ c.reply.sendError = none

/-- The copies of a request among the inputs. -/
def copies (requestID : GoString) (inputs : List Input) : List (RequestChoice × SearchRequest) :=
  inputs.filterMap fun input =>
    match input with
    | .request c _ msg => if msg.requestID = requestID then some (c, msg) else none
    | _ => none

namespace Node

/-- The node after an input. -/
def react (compile : Compile) (n : Node) : Input → Node
  | .own e => (n.step e).1
  | .request c source msg => (n.handleSearchRequestMessage compile c source msg).node
  | .reply source msg => n.handleSearchReplyMessage source msg

/-- The request for which `forwardSearchRequest` is executed on an input. -/
def forwards (n : Node) : Input → List GoString
  | .request _ _ msg =>
      if (n.handledSearchRequests.get msg.requestID).isSome then [] else [msg.requestID]
  | _ => []

/-- For every request, `forwardSearchRequest` is executed at most once. -/
def ForwardsOnce (compile : Compile) (n : Node) (inputs : List Input) : Prop :=
  ∀ requestID, (Run.collect (react compile) forwards n inputs).count requestID ≤ 1

/-- Of a request that comes more than once, the first copy is handled to the end. -/
def FirstCompletes (compile : Compile) : List (RequestChoice × SearchRequest) → Prop
  | first :: _ :: _ => Completes compile first.1 first.2
  | _ => True

section Forwarding

variable {n : Node} {requestID : GoString}

/-- `forwards` tells what the handler does: without it nothing is sent, and with it what
`forwardSearchRequest` sends comes first. -/
theorem forwards_sent (compile : Compile) (n : Node) (c : RequestChoice) (source : GoString)
    (msg : SearchRequest) :
    (n.forwards (.request c source msg) = [] ∧
        (n.handleSearchRequestMessage compile c source msg).sent = []) ∨
      n.forwards (.request c source msg) = [msg.requestID] ∧
        n.forwardSearchRequest c.fanOut msg source <+:
          (n.handleSearchRequestMessage compile c source msg).sent := by
  unfold forwards handleSearchRequestMessage
  dsimp only
  split
  · exact .inl ⟨rfl, rfl⟩
  · right
    refine ⟨rfl, ?_⟩
    split
    · exact List.prefix_rfl
    · split
      · exact List.prefix_rfl
      · exact List.prefix_append _ _

/-! ## What is handled -/

theorem step_handledSearchRequests (n : Node) (e : Event) :
    (n.step e).1.handledSearchRequests = n.handledSearchRequests := by
  cases e with
  | searchAll c requestID reg budget =>
      simp only [Node.step, searchAll]
      split <;> rfl
  | sendSearchRequests c requestID reg budget =>
      simp only [Node.step, sendSearchRequests]
      split <;> rfl
  | tag name metahash =>
      simp only [Node.step, Node.tag]
      split
      · rfl
      · split <;> rfl
  | takeReply requestID =>
      simp only [Node.step, Node.takeReply]
      split <;> rfl
  | _ => rfl

theorem handleSearchReplyMessage_handledSearchRequests (n : Node) (source : GoString)
    (msg : SearchReply) :
    (n.handleSearchReplyMessage source msg).handledSearchRequests = n.handledSearchRequests := by
  have learned : ∀ (files : List FileInfo) (n : Node),
      (files.foldl (learnFile source) n).handledSearchRequests = n.handledSearchRequests := by
    intro files
    induction files with
    | nil =>
        intro n
        rfl
    | cons file files ih =>
        intro n
        rw [List.foldl_cons, ih]
        rfl
  unfold handleSearchReplyMessage
  dsimp only
  split
  · exact learned msg.responses n
  · split <;> exact learned msg.responses n

/-- A request that is handled is noted exactly when it completes. -/
theorem handleSearchRequestMessage_handled (compile : Compile) (n : Node) (c : RequestChoice)
    (source : GoString) (msg : SearchRequest)
    (new : (n.handledSearchRequests.get msg.requestID).isSome = false) (id : GoString) :
    ((n.handleSearchRequestMessage compile c source msg).node.handledSearchRequests.get id).isSome ↔
      (n.handledSearchRequests.get id).isSome ∨ id = msg.requestID ∧ Completes compile c msg := by
  unfold handleSearchRequestMessage Completes sendReplyMessage
  rw [if_neg (by rw [new]; exact Bool.false_ne_true)]
  dsimp only
  cases compile msg.pattern with
  | error panicked => simp [Except.isOk, Except.toBool]
  | ok reg =>
      cases c.reply.marshalError with
      | some err => simp
      | none =>
          cases c.reply.sendError with
          | some err => simp
          | none =>
              dsimp only
              rw [FinMap.get_add]
              by_cases same : id = msg.requestID
              · simp [same, Except.isOk, Except.toBool]
              · simp [same]

/-! ## One input -/

/-- The node has handled a request to the end. -/
def Handled (n : Node) (requestID : GoString) : Prop :=
  (n.handledSearchRequests.get requestID).isSome

theorem copies_same (c : RequestChoice) (source : GoString) (msg : SearchRequest)
    (inputs : List Input) :
    copies msg.requestID (.request c source msg :: inputs) =
      (c, msg) :: copies msg.requestID inputs := by
  simp only [copies, List.filterMap_cons, if_true]

theorem copies_other {c : RequestChoice} {source : GoString} {msg : SearchRequest}
    (other : msg.requestID ≠ requestID) (inputs : List Input) :
    copies requestID (.request c source msg :: inputs) = copies requestID inputs := by
  simp only [copies, List.filterMap_cons, if_neg other]

/-- A request that is handled is ignored. -/
theorem react_of_handled (compile : Compile) (c : RequestChoice) (source : GoString)
    {msg : SearchRequest} (handled : n.Handled msg.requestID) :
    n.react compile (.request c source msg) = n ∧ n.forwards (.request c source msg) = [] := by
  unfold Handled at handled
  constructor
  · simp only [react, handleSearchRequestMessage, handled, if_true]
  · simp only [forwards, handled, if_true]

/-- A request that is not handled is forwarded, and handled if it completes. -/
theorem react_of_new (compile : Compile) (c : RequestChoice) (source : GoString)
    {msg : SearchRequest} (new : ¬ n.Handled msg.requestID) :
    n.forwards (.request c source msg) = [msg.requestID] ∧
      ∀ id, (n.react compile (.request c source msg)).Handled id ↔
        n.Handled id ∨ id = msg.requestID ∧ Completes compile c msg := by
  unfold Handled at new
  constructor
  · simp only [forwards, if_neg new]
  · intro id
    rw [Bool.not_eq_true] at new
    exact handleSearchRequestMessage_handled compile n c source msg new id

/-- What an input does for one request: nothing, if it is no copy of the request or the request is
handled; else the copy is forwarded, and the request is handled exactly if the copy completes. -/
theorem react_cases (compile : Compile) (n : Node) (requestID : GoString) (input : Input)
    (inputs : List Input) :
    (copies requestID (input :: inputs) = copies requestID inputs ∨ n.Handled requestID) ∧
        (n.forwards input).count requestID = 0 ∧
        ((n.react compile input).Handled requestID ↔ n.Handled requestID) ∨
      ∃ c msg, copies requestID (input :: inputs) = (c, msg) :: copies requestID inputs ∧
        ¬ n.Handled requestID ∧ (n.forwards input).count requestID = 1 ∧
        ((n.react compile input).Handled requestID ↔ Completes compile c msg) := by
  cases input with
  | own e =>
      left
      refine ⟨.inl rfl, rfl, ?_⟩
      rw [Handled, react, step_handledSearchRequests, Handled]
  | reply source msg =>
      left
      refine ⟨.inl rfl, rfl, ?_⟩
      rw [Handled, react, handleSearchReplyMessage_handledSearchRequests, Handled]
  | request c source msg =>
      by_cases handled : n.Handled msg.requestID
      · obtain ⟨unchanged, silent⟩ := react_of_handled compile c source handled
        left
        rw [unchanged, silent]
        refine ⟨?_, rfl, Iff.rfl⟩
        by_cases same : msg.requestID = requestID
        · subst same
          exact .inr handled
        · exact .inl (copies_other same inputs)
      · obtain ⟨forwarded, noted⟩ := react_of_new compile c source handled
        rw [forwarded, noted]
        by_cases same : msg.requestID = requestID
        · subst same
          right
          refine ⟨c, msg, copies_same c source msg inputs, handled, List.count_singleton_self, ?_⟩
          rw [or_iff_right handled, and_iff_right rfl]
        · left
          refine ⟨.inl (copies_other same inputs), List.count_eq_zero.mpr ?_, or_iff_left ?_⟩
          · intro mem
            exact same (List.mem_singleton.mp mem).symm
          · rintro ⟨other, _⟩
            exact same other.symm

/-! ## Runs -/

/-- How often a request is forwarded. -/
def forwardCount (compile : Compile) (n : Node) (requestID : GoString) (inputs : List Input) :
    Nat :=
  (Run.collect (react compile) forwards n inputs).count requestID

theorem forwardCount_cons (compile : Compile) (n : Node) (requestID : GoString) (input : Input)
    (inputs : List Input) :
    forwardCount compile n requestID (input :: inputs) =
      (n.forwards input).count requestID +
        forwardCount compile (n.react compile input) requestID inputs :=
  List.count_append

theorem forwardCount_of_handled (compile : Compile) (inputs : List Input)
    (handled : n.Handled requestID) : forwardCount compile n requestID inputs = 0 := by
  induction inputs generalizing n with
  | nil => rfl
  | cons input inputs ih =>
      rw [forwardCount_cons]
      rcases react_cases compile n requestID input inputs with
        ⟨_, none, kept⟩ | ⟨_, _, _, new, _⟩
      · rw [none, ih (kept.mpr handled)]
      · exact (new handled).elim

/-- A request that is not handled is forwarded exactly if there is a copy of it. -/
theorem forwardCount_eq_zero_iff (compile : Compile) (inputs : List Input)
    (new : ¬ n.Handled requestID) :
    forwardCount compile n requestID inputs = 0 ↔ copies requestID inputs = [] := by
  induction inputs generalizing n with
  | nil => exact ⟨fun _ => rfl, fun _ => rfl⟩
  | cons input inputs ih =>
      rw [forwardCount_cons]
      rcases react_cases compile n requestID input inputs with
        ⟨other | handled, none, kept⟩ | ⟨c, msg, copy, _, one, _⟩
      · rw [none, Nat.zero_add, other]
        apply ih
        rw [kept]
        exact new
      · exact (new handled).elim
      · rw [one, copy]
        constructor
        · omega
        · intro empty
          cases empty

theorem forwardCount_le_one_iff (compile : Compile) (inputs : List Input)
    (new : ¬ n.Handled requestID) :
    forwardCount compile n requestID inputs ≤ 1 ↔
      FirstCompletes compile (copies requestID inputs) := by
  induction inputs generalizing n with
  | nil => exact ⟨fun _ => trivial, fun _ => Nat.zero_le 1⟩
  | cons input inputs ih =>
      rw [forwardCount_cons]
      rcases react_cases compile n requestID input inputs with
        ⟨other | handled, none, kept⟩ | ⟨c, msg, copy, _, one, noted⟩
      · rw [none, Nat.zero_add, other]
        apply ih
        rw [kept]
        exact new
      · exact (new handled).elim
      · -- after the first copy, the others are forwarded exactly if it did not complete
        rw [one, copy]
        by_cases completes : Completes compile c msg
        · rw [forwardCount_of_handled compile inputs (noted.mpr completes)]
          refine ⟨fun _ => ?_, fun _ => Nat.le_refl 1⟩
          cases copies requestID inputs with
          | nil => trivial
          | cons second later => exact completes
        · have rest := forwardCount_eq_zero_iff compile inputs (mt noted.mp completes)
          have single : 1 + forwardCount compile (n.react compile input) requestID inputs ≤ 1 ↔
              copies requestID inputs = [] := by
            rw [← rest]
            omega
          rw [single]
          cases copies requestID inputs with
          | nil => exact ⟨fun _ => trivial, fun _ => rfl⟩
          | cons second later =>
              refine ⟨fun empty => ?_, fun done => (completes done).elim⟩
              cases empty

/-- A node forwards every request at most once exactly if of every request that it has not handled
before and of which it gets several copies the first is handled to the end. -/
theorem forwardsOnce_iff (compile : Compile) (n : Node) (inputs : List Input) :
    ForwardsOnce compile n inputs ↔ ∀ requestID, ¬ n.Handled requestID →
      FirstCompletes compile (copies requestID inputs) := by
  constructor
  · intro once requestID new
    exact (forwardCount_le_one_iff compile inputs new).mp (once requestID)
  · intro first requestID
    by_cases handled : n.Handled requestID
    · exact (forwardCount_of_handled compile inputs handled).le.trans (Nat.zero_le 1)
    · exact (forwardCount_le_one_iff compile inputs handled).mpr (first requestID handled)

/-- A request whose pattern is no regular expression. -/
def unbalanced : Input := .request sampleRequest (str "B") ⟨str "req", str "B", str "(", 3⟩

/-- It makes the handler panic, and its second copy is forwarded as the first was. -/
theorem unbalanced_forwarded_twice :
    ¬ ForwardsOnce sampleCompile (sampleNode (str "A") [str "B", str "C"])
      [unbalanced, unbalanced] := by
  intro once
  have twice : (Run.collect (react sampleCompile) forwards
      (sampleNode (str "A") [str "B", str "C"])
      [unbalanced, unbalanced]).count (str "req") = 2 := by
    decide +kernel
  have := once (str "req")
  omega

end Forwarding

end Node

end Peerster.Search
