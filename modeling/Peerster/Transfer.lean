import Peerster.DataSharing
import Peerster.Gossip.Handlers
import Peerster.Lib.Run

/-!
# Data requests over a network

One call of `sendDataRequest`, the peer that it asks, and the packets between them
(`data_sharing.go`, `handlers.go`), event by event.  A packet is numbered when it is sent; the
network delivers or loses the packets in flight in any order.  The call always goes on until it
returns, and what it returns is what `sendDataRequest` makes of its attempts
(`returned_eq_sendDataRequest`).
-/

namespace Peerster.DataSharing

/-! ## Messages -/

/-- `DataRequestMessage`. -/
structure DataRequest where
  requestID : GoString
  key : GoString
  deriving DecidableEq

/-- `DataReplyMessage`; the value may be `nil`. -/
structure DataReply where
  requestID : GoString
  key : GoString
  value : Option Bytes
  deriving DecidableEq

inductive DataMessage : Type
  | request (msg : DataRequest)
  | reply (msg : DataReply)
  deriving DecidableEq

structure DataPacket where
  header : Gossip.Header
  msg : DataMessage
  deriving DecidableEq

def DataPacket.isReply (pkt : DataPacket) : Bool :=
  match pkt.msg with
  | .request _ => false
  | .reply _ => true

/-! ## Handlers -/

/-- The fields that the handler of data requests reads and writes. -/
structure Responder where
  address : GoString
  routingTable : FinMap GoString GoString
  blobStore : Store
  handledDataRequests : FinMap GoString GoString

/-- `handleDataRequestMessage`: the reply that it sends, unless the request is handled already. -/
def Responder.handleDataRequestMessage (r : Responder) (c : Gossip.SendChoice) (source : GoString)
    (dataRequest : DataRequest) : Responder × Except GoString (Option DataPacket) :=
  if (r.handledDataRequests.get dataRequest.requestID).isSome then (r, .ok none)
  else
    let value := r.blobStore.get dataRequest.key
    match c.marshalError with
    | some err => (r, .error err)
    | none =>
        match r.routingTable.get source with
        | none => (r, .error (str "No route to destination " ++ source))
        | some _ =>
            match c.sendError with
            | some err => (r, .error err)
            | none =>
                ({ r with handledDataRequests :=
                    r.handledDataRequests.add dataRequest.requestID source },
                  .ok (some ⟨⟨c.packetID, r.address, r.address, source⟩,
                    .reply ⟨dataRequest.requestID, dataRequest.key, value⟩⟩))

/-- The channels of replies; a channel has room for one. -/
abbrev ReplyChannels := FinMap GoString (Option DataReply)

/-- `handleDataReplyMessage`. -/
def handleDataReplyMessage (dataReplyChan : ReplyChannels) (dataReply : DataReply) :
    ReplyChannels :=
  match dataReplyChan.get dataReply.requestID with
  | some none => dataReplyChan.add dataReply.requestID (some dataReply)
  | _ => dataReplyChan

/-! ## The call and the network -/

/-- The local variables of a call of `sendDataRequest`. -/
structure Call where
  address : GoString
  retry : UInt64
  requestID : GoString
  packetID : GoString
  key : GoString
  destPeer : GoString
  marshalError : Option GoString
  nextHop : Option GoString

/-- Where a call is: before the send of a try, in its `select`, or at its end. -/
inductive Phase : Type
  | sending (retries : Nat)
  | waiting (retries : Nat)
  | returned (result : Except GoString Bytes)
  deriving DecidableEq

/-- A call in progress, the peer, and the packets in flight with their numbers. -/
structure Transfer where
  phase : Phase
  dataReplyChan : ReplyChannels
  responder : Responder
  inFlight : List (Nat × DataPacket)
  sent : Nat

/-- What happens next: the call sends, takes a reply, or has waited long enough; or a packet in
flight is delivered or lost. -/
inductive Event : Type
  | send (err : Option GoString)
  | receive
  | timeout
  | deliver (i : Nat) (c : Gossip.SendChoice)
  | lose (i : Nat)

/-- The packet that every try sends. -/
def Call.packet (call : Call) : DataPacket :=
  ⟨⟨call.packetID, call.address, call.address, call.destPeer⟩,
    .request ⟨call.requestID, call.key⟩⟩

namespace Transfer

/-- A packet is sent. -/
def post (t : Transfer) (pkt : DataPacket) : Transfer :=
  { t with inFlight := t.inFlight ++ [(t.sent, pkt)], sent := t.sent + 1 }

/-- The call returns, and its channel is removed. -/
def finish (t : Transfer) (call : Call) (result : Except GoString Bytes) : Transfer :=
  { t with phase := .returned result, dataReplyChan := t.dataReplyChan.remove call.requestID }

/-- The call before its loop. -/
def start (call : Call) (dataReplyChan : ReplyChannels) (responder : Responder) : Transfer :=
  let t : Transfer := ⟨.sending 0, dataReplyChan.add call.requestID none, responder, [], 0⟩
  match call.marshalError with
  | some err => t.finish call (.error err)
  | none =>
      match call.nextHop with
      | none => t.finish call (.error (str "No route to destination " ++ call.destPeer))
      | some _ => t

/-- The reply in the channel of the call. -/
def held (t : Transfer) (call : Call) : Option DataReply :=
  (t.dataReplyChan.get call.requestID).join

/-- A packet that has been taken from the network is handled. -/
def handle (t : Transfer) (c : Gossip.SendChoice) (pkt : DataPacket) : Transfer :=
  match pkt.msg with
  | .request dataRequest =>
      match t.responder.handleDataRequestMessage c pkt.header.source dataRequest with
      | (responder, .ok (some reply)) => { t with responder := responder }.post reply
      | (responder, _) => { t with responder := responder }
  | .reply dataReply =>
      { t with dataReplyChan := handleDataReplyMessage t.dataReplyChan dataReply }

/-- One event. -/
def step (call : Call) (t : Transfer) : Event → Transfer
  | .send err =>
      match t.phase with
      | .sending retries =>
          if (retries : Int) < maxRetries call.retry then
            match err with
            | some err => t.finish call (.error err)
            | none => { t with phase := .waiting retries }.post call.packet
          else t.finish call
            (.error (str "timeout waiting for DataReplyMessage for key " ++ call.key))
      | _ => t
  | .receive =>
      match t.phase, t.held call with
      | .waiting retries, some dataReply =>
          let t := { t with dataReplyChan := t.dataReplyChan.add call.requestID none }
          if dataReply.requestID = call.requestID then
            match dataReply.value with
            | some value => t.finish call (.ok value)
            | none => t.finish call
                (.error (str "Peer " ++ call.destPeer ++ str " does not have data"))
          else { t with phase := .sending (retries + 1) }
      | _, _ => t
  | .timeout =>
      match t.phase with
      | .waiting retries => { t with phase := .sending (retries + 1) }
      | _ => t
  | .deliver i c =>
      match t.inFlight[i]? with
      | none => t
      | some (_, pkt) => { t with inFlight := t.inFlight.eraseIdx i }.handle c pkt
  | .lose i => { t with inFlight := t.inFlight.eraseIdx i }

/-- A delivery does not move the call. -/
theorem phase_deliver (t : Transfer) (call : Call) (i : Nat) (c : Gossip.SendChoice) :
    (t.step call (.deliver i c)).phase = t.phase := by
  unfold step
  dsimp only
  split
  · rfl
  · unfold handle
    split
    · split <;> rfl
    · rfl

/-! ## The loop

The call goes on until it returns, and it returns what `sendDataRequest` makes of its attempts. -/

/-- How many steps of its own a call has still to make at most. -/
def rank (call : Call) (t : Transfer) : Nat :=
  match t.phase with
  | .sending retries => 2 * ((maxRetries call.retry).toNat - retries) + 1
  | .waiting retries => 2 * ((maxRetries call.retry).toNat - retries - 1) + 2
  | .returned _ => 0

/-- Every move of the call brings it closer to its end. -/
theorem rank_step_lt (call : Call) (t : Transfer) (e : Event)
    (moves : (t.step call e).phase ≠ t.phase) : rank call (t.step call e) < rank call t := by
  cases e with
  | deliver i c => exact (moves (phase_deliver t call i c)).elim
  | lose i => exact (moves rfl).elim
  | send err =>
      unfold step at moves ⊢
      cases phase : t.phase with
      | sending retries =>
          dsimp only
          split
          · cases err with
            | some err => simp [rank, finish, phase]
            | none =>
                simp only [rank, post, phase]
                omega
          · simp [rank, finish, phase]
      | _ => simp [phase] at moves
  | receive =>
      unfold step at moves ⊢
      cases phase : t.phase with
      | waiting retries =>
          cases reply : t.held call with
          | none => simp [phase, reply] at moves
          | some dataReply =>
              dsimp only
              split
              · cases dataReply.value <;> simp [rank, finish, phase]
              · simp only [rank, phase]
                omega
      | _ => simp [phase] at moves
  | timeout =>
      unfold step at moves ⊢
      cases phase : t.phase with
      | waiting retries =>
          simp only [rank, phase]
          omega
      | _ => simp [phase] at moves

/-- A call that has not returned can move. -/
theorem moves_of_going (call : Call) (t : Transfer) (going : ∀ result, t.phase ≠ .returned result) :
    ∃ e, (t.step call e).phase ≠ t.phase := by
  cases phase : t.phase with
  | sending retries =>
      refine ⟨.send none, ?_⟩
      simp only [step, phase]
      split <;> simp [post, finish]
  | waiting retries =>
      refine ⟨.timeout, ?_⟩
      simp [step, phase]
  | returned result => exact (going result phase).elim

/-- A call can always go on until it returns. -/
theorem exists_returns (call : Call) (t : Transfer) :
    ∃ es result, (Run.run (step call) t es).phase = .returned result := by
  induction left : rank call t using Nat.strongRecOn generalizing t with
  | ind k ih =>
      by_cases going : ∀ result, t.phase ≠ .returned result
      · obtain ⟨e, moves⟩ := moves_of_going call t going
        have closer := rank_step_lt call t e moves
        rw [left] at closer
        obtain ⟨es, result, returned⟩ := ih _ closer (t.step call e) rfl
        exact ⟨e :: es, result, returned⟩
      · push Not at going
        obtain ⟨result, returned⟩ := going
        exact ⟨[], result, returned⟩

/-- What a try of the call ends with. -/
def attempt (call : Call) (t : Transfer) : Event → List Attempt
  | .send (some err) =>
      match t.phase with
      | .sending retries => if (retries : Int) < maxRetries call.retry then [.sendFails err] else []
      | _ => []
  | .receive =>
      match t.phase, t.held call with
      | .waiting _, some dataReply => [.reply dataReply.requestID dataReply.value]
      | _, _ => []
  | .timeout =>
      match t.phase with
      | .waiting _ => [.timeout]
      | _ => []
  | _ => []

/-- The exchange that a call has had with some attempts. -/
def exchange (call : Call) (attempts : List Attempt) : Exchange where
  peerOrder := .sorted
  random := 0
  requestID := call.requestID
  marshalError := call.marshalError
  nextHop := call.nextHop
  attempts k := (attempts[k]?).getD .timeout

/-- What is left of the loop, or what it has returned, whatever attempts are still to come. -/
def Refines (call : Call) (tried : List Attempt) (phase : Phase) : Prop :=
  ∀ more,
    let x := exchange call (tried ++ more)
    let result := sendDataRequest call.retry x call.key call.destPeer
    let left := requestLoop x call.key call.destPeer
      ((maxRetries call.retry).toNat - tried.length) tried.length
    match phase with
    | .sending retries => retries = tried.length ∧ result = left
    | .waiting retries =>
        retries = tried.length ∧ (retries : Int) < maxRetries call.retry ∧ result = left
    | .returned returned => result = returned

/-- One try of the loop. -/
theorem requestLoop_next (call : Call) (tried more : List Attempt) (a : Attempt)
    (left : (tried.length : Int) < maxRetries call.retry) :
    requestLoop (exchange call (tried ++ a :: more)) call.key call.destPeer
        ((maxRetries call.retry).toNat - tried.length) tried.length =
      match a with
      | .sendFails err => .error err
      | .reply requestID value =>
          if requestID = call.requestID then
            match value with
            | some data => .ok data
            | none => .error (str "Peer " ++ call.destPeer ++ str " does not have data")
          else requestLoop (exchange call (tried ++ a :: more)) call.key call.destPeer
            ((maxRetries call.retry).toNat - (tried.length + 1)) (tried.length + 1)
      | .timeout => requestLoop (exchange call (tried ++ a :: more)) call.key call.destPeer
          ((maxRetries call.retry).toNat - (tried.length + 1)) (tried.length + 1) := by
  have next : (maxRetries call.retry).toNat - tried.length =
      (maxRetries call.retry).toNat - (tried.length + 1) + 1 := by omega
  have here : (exchange call (tried ++ a :: more)).attempts tried.length = a := by
    simp [exchange]
  rw [next, requestLoop, here]
  cases a <;> rfl

theorem refines_start (call : Call) (dataReplyChan : ReplyChannels) (responder : Responder) :
    Refines call [] (start call dataReplyChan responder).phase := by
  intro more
  simp only [sendDataRequest, exchange, start]
  cases call.marshalError with
  | some err => rfl
  | none =>
      cases call.nextHop with
      | none => rfl
      | some hop => exact ⟨rfl, rfl⟩

section Steps

variable {call : Call} {tried : List Attempt} {t : Transfer}

/-- Nothing happens to the loop. -/
theorem refines_idle {e : Event} (refines : Refines call tried t.phase)
    (idle : attempt call t e = []) (same : (t.step call e).phase = t.phase) :
    Refines call (tried ++ attempt call t e) (t.step call e).phase := by
  rw [idle, same, List.append_nil]
  exact refines

theorem refines_send (refines : Refines call tried t.phase) (err : Option GoString) :
    Refines call (tried ++ attempt call t (.send err)) (t.step call (.send err)).phase := by
  cases phase : t.phase with
  | waiting retries =>
      apply refines_idle refines
      · cases err <;> simp [attempt, phase]
      · simp only [step, phase]
  | returned result =>
      apply refines_idle refines
      · cases err <;> simp [attempt, phase]
      · simp only [step, phase]
  | sending retries =>
      rw [phase] at refines
      obtain ⟨rfl, _⟩ := refines []
      by_cases left : (tried.length : Int) < maxRetries call.retry
      · cases err with
        | none =>
            simp only [attempt, step, phase, if_pos left, post, List.append_nil]
            intro more
            exact ⟨rfl, left, (refines more).2⟩
        | some err =>
            simp only [attempt, step, phase, if_pos left, finish]
            intro more
            have result := (refines (.sendFails err :: more)).2
            rw [requestLoop_next call tried more _ left, List.append_cons] at result
            exact result
      · -- there is no try left
        have exhausted : (maxRetries call.retry).toNat - tried.length = 0 := by omega
        have silent : attempt call t (.send err) = [] := by
          cases err with
          | none => rfl
          | some err => simp only [attempt, phase, if_neg left]
        simp only [silent, step, phase, if_neg left, finish, List.append_nil]
        intro more
        have result := (refines more).2
        rw [exhausted] at result
        exact result

theorem refines_receive (refines : Refines call tried t.phase) :
    Refines call (tried ++ attempt call t .receive) (t.step call .receive).phase := by
  cases phase : t.phase with
  | sending retries =>
      exact refines_idle refines (by simp only [attempt, phase]) (by simp only [step, phase])
  | returned result =>
      exact refines_idle refines (by simp only [attempt, phase]) (by simp only [step, phase])
  | waiting retries =>
      cases reply : t.held call with
      | none =>
          exact refines_idle refines (by simp only [attempt, phase, reply])
            (by simp only [step, phase, reply])
      | some dataReply =>
          rw [phase] at refines
          obtain ⟨rfl, left, _⟩ := refines []
          simp only [attempt, step, phase, reply]
          intro more
          have result := (refines (.reply dataReply.requestID dataReply.value :: more)).2.2
          rw [requestLoop_next call tried more _ left, List.append_cons] at result
          by_cases same : dataReply.requestID = call.requestID
          · simp only [if_pos same] at result ⊢
            cases value : dataReply.value with
            | none =>
                rw [value] at result
                exact result
            | some data =>
                rw [value] at result
                exact result
          · simp only [if_neg same] at result ⊢
            rw [List.length_append]
            exact ⟨rfl, result⟩

theorem refines_timeout (refines : Refines call tried t.phase) :
    Refines call (tried ++ attempt call t .timeout) (t.step call .timeout).phase := by
  cases phase : t.phase with
  | sending retries =>
      exact refines_idle refines (by simp only [attempt, phase]) (by simp only [step, phase])
  | returned result =>
      exact refines_idle refines (by simp only [attempt, phase]) (by simp only [step, phase])
  | waiting retries =>
      rw [phase] at refines
      obtain ⟨rfl, left, _⟩ := refines []
      simp only [attempt, step, phase]
      intro more
      have result := (refines (.timeout :: more)).2.2
      rw [requestLoop_next call tried more _ left, List.append_cons] at result
      rw [List.length_append]
      exact ⟨rfl, result⟩

theorem refines_step (refines : Refines call tried t.phase) (e : Event) :
    Refines call (tried ++ attempt call t e) (t.step call e).phase := by
  cases e with
  | send err => exact refines_send refines err
  | receive => exact refines_receive refines
  | timeout => exact refines_timeout refines
  | deliver i c => exact refines_idle refines rfl (phase_deliver t call i c)
  | lose i => exact refines_idle refines rfl rfl

end Steps

/-- A call returns what `sendDataRequest` makes of the attempts it has had. -/
theorem returned_eq_sendDataRequest (call : Call) (dataReplyChan : ReplyChannels)
    (responder : Responder) (es : List Event) {result : Except GoString Bytes}
    (returned : (Run.run (step call) (start call dataReplyChan responder) es).phase =
      .returned result) :
    sendDataRequest call.retry
        (exchange call
          (Run.collect (step call) (attempt call) (start call dataReplyChan responder) es))
        call.key call.destPeer = result := by
  have refines : Refines call
      (Run.collect (step call) (attempt call) (start call dataReplyChan responder) es)
      (Run.run (step call) (start call dataReplyChan responder) es).phase :=
    Run.run_collect_invariant (I := fun tried (t : Transfer) => Refines call tried t.phase)
      (refines_start call dataReplyChan responder) (fun _ _ e refines => refines_step refines e) es
  have here := refines []
  rw [returned, List.append_nil] at here
  exact here

end Transfer

end Peerster.DataSharing
