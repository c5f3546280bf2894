import Peerster.Gossip.Handlers
import Peerster.Lib.Channel
import Peerster.Lib.Run

/-!
# Handing over an acknowledgement

The goroutine that has sent a packet of rumors waits for its acknowledgement on a channel that it
registers in `ackChannel` after the packet has gone out.  `handleAckMessage` looks the channel up
and then sends on it; `waitForAck` takes an acknowledgement or times out, removes the channel from
the map, and then closes it.  The steps here are those at which the two sides meet, for one packet
and any number of acknowledgements of it: a handler that has looked up the channel holds it until it
has sent.

An acknowledgement that is handled before the channel is registered finds none and is lost, and one
whose handler holds the channel when it is closed hits a closed channel.
-/

namespace Peerster.Gossip

/-- Where the goroutine of a packet is: before the packet is sent, before it registers the channel,
before it starts its timer, in `select`, parked there, or after it: on the way to `Remove` (with an
acknowledgement or without), to `close`, to send the message again, or back. -/
inductive Waiter : Type
  | sending
  | spawned
  | selecting
  | polling
  | parked
  | acked
  | timedOut
  | closing (resends : Bool)
  | resending
  | returned
  deriving DecidableEq, Repr

/-- A packet of rumors on the side of its sender.  The channel carries the packet IDs acknowledged;
`holding` lists what handlers are about to send on it, and `handled` counts the acknowledgements of
the packet whose handlers are past that. -/
structure Handoff where
  packetID : GoString
  ackTimeout : Nat
  waiter : Waiter
  registered : Bool
  ackReceived : Channel GoString
  fired : Bool
  holding : List GoString
  handled : Nat
  resent : Bool
  panicked : Bool

namespace Handoff

/-- A step of the goroutine of the packet, of its timer, or of a handler of an acknowledgement. -/
inductive Event : Type
  | sendPacket (fails : Bool)
  | register
  | arm
  | park
  | fire
  | receive
  | timeOut
  | stop
  | remove
  | close
  | resend (fails : Bool)
  | lookUp
  | handOff
  deriving DecidableEq, Repr

/-- The goroutine takes the acknowledgement of a packet ID from the channel. -/
def take (s : Handoff) (ackedPacketID : GoString) : Handoff :=
  { s with waiter := if ackedPacketID = s.packetID then .acked else .selecting }

/-- A handler sends the acknowledgement it has in hand.  A goroutine that is parked in `select`
takes it at once. -/
def handOff (s : Handoff) (ackedPacketID : GoString) (rest : List GoString) : Handoff :=
  match s.ackReceived.send ackedPacketID with
  | .panics => { s with holding := rest, panicked := true }
  | .waits => s
  | .sends channel =>
      let s := { s with holding := rest, handled := s.handled + 1 }
      if s.waiter = .parked then s.take ackedPacketID else { s with ackReceived := channel }

/-- One step; an event that is not enabled does not happen. -/
def step (s : Handoff) : Event → Handoff
  | .sendPacket fails =>
      if s.waiter = .sending then { s with waiter := if fails then .returned else .spawned } else s
  | .register =>
      if s.waiter = .spawned then
        if s.ackTimeout = 0 then { s with waiter := .returned }
        else { s with registered := true, waiter := .selecting }
      else s
  | .arm => if s.waiter = .selecting then { s with waiter := .polling, fired := false } else s
  | .park =>
      if s.waiter = .polling ∧ s.ackReceived.buffer = [] ∧ s.fired = false then
        { s with waiter := .parked }
      else s
  | .fire =>
      if s.waiter = .polling then { s with fired := true }
      else if s.waiter = .parked then { s with fired := true, waiter := .timedOut }
      else s
  | .receive =>
      match s.waiter, s.ackReceived.buffer with
      | .polling, ackedPacketID :: buffer =>
          { s with ackReceived := { s.ackReceived with buffer := buffer } }.take ackedPacketID
      | _, _ => s
  | .timeOut =>
      if s.waiter = .polling ∧ s.fired = true then { s with waiter := .timedOut } else s
  | .stop =>
      if s.waiter = .polling ∨ s.waiter = .parked then { s with waiter := .returned } else s
  | .remove =>
      match s.waiter with
      | .acked => { s with registered := false, waiter := .closing false }
      | .timedOut => { s with registered := false, waiter := .closing true }
      | _ => s
  | .close =>
      match s.waiter with
      | .closing resends =>
          { s with
            ackReceived := s.ackReceived.close
            waiter := if resends then .resending else .returned }
      | _ => s
  | .resend fails =>
      if s.waiter = .resending then { s with waiter := .returned, resent := !fails } else s
  | .lookUp =>
      if s.waiter = .sending then s
      else if s.registered then { s with holding := s.holding ++ [s.packetID] }
      else { s with handled := s.handled + 1 }
  | .handOff =>
      match s.holding with
      | [] => s
      | ackedPacketID :: rest => s.handOff ackedPacketID rest

/-- Before a packet is sent. -/
def initial (packetID : GoString) (ackTimeout : Nat) : Handoff where
  packetID := packetID
  ackTimeout := ackTimeout
  waiter := .sending
  registered := false
  ackReceived := .make 1
  fired := false
  holding := []
  handled := 0
  resent := false
  panicked := false

/-! ## What a step does -/

variable {s s' : Handoff} {e : Event}

/-- The steps that are taken, each with what enables it. -/
inductive Moves (s : Handoff) : Event → Handoff → Prop
  | idle (e : Event) : Moves s e s
  | sends (fails : Bool) :
    s.waiter = .sending →
    Moves s (.sendPacket fails) { s with waiter := if fails then .returned else .spawned }
  | skips :
    s.waiter = .spawned → s.ackTimeout = 0 → Moves s .register { s with waiter := .returned }
  | registers :
    s.waiter = .spawned → s.ackTimeout ≠ 0 →
    Moves s .register { s with registered := true, waiter := .selecting }
  | arms : s.waiter = .selecting → Moves s .arm { s with waiter := .polling, fired := false }
  | parks :
    s.waiter = .polling → s.ackReceived.buffer = [] → s.fired = false →
    Moves s .park { s with waiter := .parked }
  | fires : s.waiter = .polling → Moves s .fire { s with fired := true }
  | firesParked :
    s.waiter = .parked → Moves s .fire { s with fired := true, waiter := .timedOut }
  | receives (ackedPacketID : GoString) (buffer : List GoString) :
    s.waiter = .polling → s.ackReceived.buffer = ackedPacketID :: buffer →
    Moves s .receive
      ({ s with ackReceived := { s.ackReceived with buffer := buffer } }.take ackedPacketID)
  | timesOut :
    s.waiter = .polling → s.fired = true → Moves s .timeOut { s with waiter := .timedOut }
  | stops :
    s.waiter = .polling ∨ s.waiter = .parked → Moves s .stop { s with waiter := .returned }
  | removes :
    s.waiter = .acked →
    Moves s .remove { s with registered := false, waiter := .closing false }
  | removesLate :
    s.waiter = .timedOut →
    Moves s .remove { s with registered := false, waiter := .closing true }
  | closes (resends : Bool) :
    s.waiter = .closing resends →
    Moves s .close
      { s with
        ackReceived := s.ackReceived.close
        waiter := if resends then .resending else .returned }
  | resends (fails : Bool) :
    s.waiter = .resending →
    Moves s (.resend fails) { s with waiter := .returned, resent := !fails }
  | finds :
    s.waiter ≠ .sending → s.registered = true →
    Moves s .lookUp { s with holding := s.holding ++ [s.packetID] }
  | misses :
    s.waiter ≠ .sending → s.registered = false →
    Moves s .lookUp { s with handled := s.handled + 1 }
  | panics (ackedPacketID : GoString) (rest : List GoString) :
    s.holding = ackedPacketID :: rest → s.ackReceived.closed = true →
    Moves s .handOff { s with holding := rest, panicked := true }
  | handsOver (ackedPacketID : GoString) (rest : List GoString) :
    s.holding = ackedPacketID :: rest → s.ackReceived.closed = false → s.waiter = .parked →
    Moves s .handOff
      ({ s with holding := rest, handled := s.handled + 1 }.take ackedPacketID)
  | buffers (ackedPacketID : GoString) (rest : List GoString) :
    s.holding = ackedPacketID :: rest → s.ackReceived.closed = false → s.waiter ≠ .parked →
    Moves s .handOff
      { s with
        holding := rest
        handled := s.handled + 1
        ackReceived :=
          { s.ackReceived with buffer := s.ackReceived.buffer ++ [ackedPacketID] } }

theorem moves_handOff (s : Handoff) : s.Moves .handOff (s.step .handOff) := by
  unfold step
  dsimp only
  split
  · exact .idle _
  · next ackedPacketID rest held =>
    unfold handOff
    split
    · next panics => exact .panics ackedPacketID rest held (Channel.send_eq_panics.mp panics)
    · exact .idle _
    · next channel sends =>
      obtain ⟨opened, rfl⟩ := Channel.send_eq_sends sends
      dsimp only
      split
      · next parked => exact .handsOver ackedPacketID rest held opened parked
      · next busy => exact .buffers ackedPacketID rest held opened busy

theorem moves_step (s : Handoff) (e : Event) : s.Moves e (s.step e) := by
  cases e with
  | handOff => exact s.moves_handOff
  | sendPacket fails =>
      unfold step
      dsimp only
      split
      · next sending => exact .sends fails sending
      · exact .idle _
  | register =>
      unfold step
      dsimp only
      split
      · next spawned =>
        split
        · next none => exact .skips spawned none
        · next some => exact .registers spawned some
      · exact .idle _
  | arm =>
      unfold step
      dsimp only
      split
      · next selecting => exact .arms selecting
      · exact .idle _
  | park =>
      unfold step
      dsimp only
      split
      · next polling => exact .parks polling.1 polling.2.1 polling.2.2
      · exact .idle _
  | fire =>
      unfold step
      dsimp only
      split
      · next polling => exact .fires polling
      · split
        · next parked => exact .firesParked parked
        · exact .idle _
  | receive =>
      unfold step
      dsimp only
      split
      · next ackedPacketID buffer polling filled => exact .receives _ _ polling filled
      · exact .idle _
  | timeOut =>
      unfold step
      dsimp only
      split
      · next polling => exact .timesOut polling.1 polling.2
      · exact .idle _
  | stop =>
      unfold step
      dsimp only
      split
      · next waiting => exact .stops waiting
      · exact .idle _
  | remove =>
      unfold step
      dsimp only
      split
      · next acked => exact .removes acked
      · next timedOut => exact .removesLate timedOut
      · exact .idle _
  | close =>
      unfold step
      dsimp only
      split
      · next resends closing => exact .closes resends closing
      · exact .idle _
  | resend fails =>
      unfold step
      dsimp only
      split
      · next resending => exact .resends fails resending
      · exact .idle _
  | lookUp =>
      unfold step
      dsimp only
      split
      · exact .idle _
      · next sent =>
        split
        · next registered => exact .finds sent registered
        · next unregistered => exact .misses sent (Bool.eq_false_iff.mpr unregistered)

/-! ## A closed channel -/

section Closed

/-- What a step does to the channel and to those who hold it: nothing, or the goroutine closes the
channel, a handler finds it, or a handler comes to its send. -/
theorem Moves.channel (moves : s.Moves e s') :
    (s'.ackReceived.closed = s.ackReceived.closed ∧ s'.holding = s.holding ∧
        s'.panicked = s.panicked) ∨
      (e = .close ∧ (∃ resends, s.waiter = .closing resends) ∧
        s'.ackReceived.closed = true ∧ s'.holding = s.holding ∧ s'.panicked = s.panicked) ∨
      (s.registered = true ∧ s'.ackReceived.closed = s.ackReceived.closed ∧
        s'.holding = s.holding ++ [s.packetID] ∧ s'.panicked = s.panicked) ∨
      (∃ ackedPacketID rest, s.holding = ackedPacketID :: rest ∧ s'.holding = rest ∧
        s'.ackReceived.closed = s.ackReceived.closed ∧
        s'.panicked = (s.panicked || s.ackReceived.closed)) := by
  cases moves with
  | closes resends closing => exact .inr (.inl ⟨rfl, ⟨resends, closing⟩, rfl, rfl, rfl⟩)
  | finds _ registered => exact .inr (.inr (.inl ⟨registered, rfl, rfl, rfl⟩))
  | panics ackedPacketID rest held closed =>
      refine .inr (.inr (.inr ⟨ackedPacketID, rest, held, rfl, rfl, ?_⟩))
      rw [closed, Bool.or_true]
  | handsOver ackedPacketID rest held opened _ =>
      refine .inr (.inr (.inr ⟨ackedPacketID, rest, held, rfl, rfl, ?_⟩))
      rw [opened, Bool.or_false]
      rfl
  | buffers ackedPacketID rest held opened _ =>
      refine .inr (.inr (.inr ⟨ackedPacketID, rest, held, rfl, rfl, ?_⟩))
      rw [opened, Bool.or_false]
  | _ => exact .inl ⟨rfl, rfl, rfl⟩

/-- The channel is removed before it is closed. -/
structure Orderly (s : Handoff) : Prop where
  closing : ∀ resends, s.waiter = .closing resends → s.registered = false
  closed : s.ackReceived.closed = true →
    s.registered = false ∧ (s.waiter = .resending ∨ s.waiter = .returned)

theorem orderly_initial (packetID : GoString) (ackTimeout : Nat) :
    (initial packetID ackTimeout).Orderly := by
  constructor
  · intro resends closing
    cases closing
  · intro closed
    cases closed

/-- While the goroutine is still to close the channel, it is open. -/
theorem Orderly.opened (orderly : s.Orderly)
    (early : s.waiter ≠ .resending ∧ s.waiter ≠ .returned) : s.ackReceived.closed = false := by
  by_contra closed
  rcases (orderly.closed (Bool.eq_true_of_not_eq_false closed)).2 with resending | returned
  · exact early.1 resending
  · exact early.2 returned

/-- A step that leaves the map and the goroutine alone and does not close the channel. -/
theorem Orderly.of_same (orderly : s.Orderly)
    (closed : s'.ackReceived.closed = s.ackReceived.closed)
    (registered : s'.registered = s.registered) (waiter : s'.waiter = s.waiter) : s'.Orderly := by
  constructor
  · rw [waiter, registered]
    exact orderly.closing
  · rw [waiter, registered, closed]
    exact orderly.closed

/-- A step of the goroutine before it comes to close the channel. -/
theorem Orderly.of_early (orderly : s.Orderly)
    (closed : s'.ackReceived.closed = s.ackReceived.closed)
    (early : s.waiter ≠ .resending ∧ s.waiter ≠ .returned)
    (closing : ∀ resends, s'.waiter = .closing resends → s'.registered = false) : s'.Orderly := by
  refine ⟨closing, fun isClosed => ?_⟩
  rw [closed, orderly.opened early] at isClosed
  cases isClosed

/-- A goroutine that has taken an acknowledgement goes on to `Remove`, or back to its `select`. -/
theorem take_waiter (s : Handoff) (ackedPacketID : GoString) (resends : Bool) :
    (s.take ackedPacketID).waiter ≠ .closing resends := by
  unfold take
  dsimp only
  split <;> simp

theorem Moves.orderly (moves : s.Moves e s') (orderly : s.Orderly) : s'.Orderly := by
  cases moves with
  | idle => exact orderly
  | sends fails sending =>
      refine orderly.of_early rfl (by simp [sending]) fun resends closing => ?_
      cases fails <;> cases closing
  | skips spawned _ => exact orderly.of_early rfl (by simp [spawned]) (by simp)
  | registers spawned _ => exact orderly.of_early rfl (by simp [spawned]) (by simp)
  | arms selecting => exact orderly.of_early rfl (by simp [selecting]) (by simp)
  | parks polling _ _ => exact orderly.of_early rfl (by simp [polling]) (by simp)
  | fires polling => exact orderly.of_same rfl rfl rfl
  | firesParked parked => exact orderly.of_early rfl (by simp [parked]) (by simp)
  | receives ackedPacketID buffer polling _ =>
      exact orderly.of_early rfl (by simp [polling]) fun resends closing =>
        (take_waiter _ _ resends closing).elim
  | timesOut polling _ => exact orderly.of_early rfl (by simp [polling]) (by simp)
  | stops waiting =>
      refine orderly.of_early rfl ?_ (by simp)
      rcases waiting with polling | parked
      · simp [polling]
      · simp [parked]
  | removes acked => exact orderly.of_early rfl (by simp [acked]) fun _ _ => rfl
  | removesLate timedOut => exact orderly.of_early rfl (by simp [timedOut]) fun _ _ => rfl
  | closes resends closing =>
      constructor
      · intro resends' closing'
        cases resends <;> cases closing'
      · intro _
        refine ⟨orderly.closing resends closing, ?_⟩
        cases resends with
        | true => exact .inl rfl
        | false => exact .inr rfl
  | resends fails resending =>
      constructor
      · intro resends closing
        cases closing
      · intro closed
        exact ⟨(orderly.closed closed).1, .inr rfl⟩
  | finds => exact orderly.of_same rfl rfl rfl
  | misses => exact orderly.of_same rfl rfl rfl
  | panics => exact orderly.of_same rfl rfl rfl
  | handsOver ackedPacketID rest _ _ parked =>
      exact orderly.of_early rfl (by simp [parked]) fun resends closing =>
        (take_waiter _ _ resends closing).elim
  | buffers => exact orderly.of_same rfl rfl rfl

theorem Orderly.step (orderly : s.Orderly) (e : Event) : (s.step e).Orderly :=
  (s.moves_step e).orderly orderly

/-- `waitForAck` closes the channel only while no handler holds it. -/
def ClosesFree (s : Handoff) (e : Event) : Prop :=
  e = .close → (∃ resends, s.waiter = .closing resends) → s.holding = []

/-- No handler has sent on the closed channel, and none holds it. -/
def Unharmed (s : Handoff) : Prop :=
  s.panicked = false ∧ (s.ackReceived.closed = true → s.holding = [])

/-- A handler has sent on the closed channel, or holds it. -/
def Harmed (s : Handoff) : Prop :=
  s.panicked = true ∨ s.ackReceived.closed = true ∧ s.holding ≠ []

theorem Unharmed.step (unharmed : s.Unharmed) (orderly : s.Orderly) (free : s.ClosesFree e) :
    (s.step e).Unharmed := by
  obtain ⟨calm, released⟩ := unharmed
  unfold Unharmed
  rcases (s.moves_step e).channel with ⟨closed, holding, panicked⟩ |
    ⟨rfl, closing, -, holding, panicked⟩ | ⟨registered, closed, -, panicked⟩ |
    ⟨ackedPacketID, rest, held, holding, closed, panicked⟩
  · rw [closed, holding, panicked]
    exact ⟨calm, released⟩
  · rw [holding, panicked]
    exact ⟨calm, fun _ => free rfl closing⟩
  · rw [closed, panicked]
    refine ⟨calm, fun isClosed => ?_⟩
    rw [(orderly.closed isClosed).1] at registered
    cases registered
  · have opened : s.ackReceived.closed = false := by
      by_contra isClosed
      rw [released (Bool.eq_true_of_not_eq_false isClosed)] at held
      cases held
    rw [closed, panicked, calm, opened]
    exact ⟨rfl, fun impossible => by cases impossible⟩

theorem Harmed.step (harmed : s.Harmed) (e : Event) : (s.step e).Harmed := by
  unfold Harmed
  rcases (s.moves_step e).channel with ⟨closed, holding, panicked⟩ |
    ⟨-, -, closed, holding, panicked⟩ | ⟨-, closed, holding, panicked⟩ |
    ⟨ackedPacketID, rest, held, holding, closed, panicked⟩
  · rw [closed, holding, panicked]
    exact harmed
  · rw [closed, holding, panicked]
    rcases harmed with before | ⟨-, held⟩
    · exact .inl before
    · exact .inr ⟨rfl, held⟩
  · rw [closed, holding, panicked]
    rcases harmed with before | ⟨isClosed, -⟩
    · exact .inl before
    · exact .inr ⟨isClosed, by simp⟩
  · rw [panicked]
    left
    rcases harmed with before | ⟨isClosed, -⟩
    · rw [before, Bool.true_or]
    · rw [isClosed, Bool.or_true]

/-- A channel that is closed while a handler holds it does harm. -/
theorem harmed_of_not_closesFree (held : ¬ s.ClosesFree e) : (s.step e).Harmed := by
  unfold ClosesFree at held
  push Not at held
  obtain ⟨rfl, ⟨resends, closing⟩, holding⟩ := held
  right
  unfold Handoff.step
  simp only [closing]
  exact ⟨rfl, holding⟩

/-- From a harmed state, the next handler that comes to its send panics. -/
theorem Harmed.panicked (harmed : s.Harmed) : (s.step .handOff).panicked = true := by
  rcases harmed with before | ⟨closed, holding⟩
  · rcases (s.moves_step .handOff).channel with ⟨-, -, panicked⟩ | ⟨impossible, -⟩ |
      ⟨-, -, -, panicked⟩ | ⟨-, -, -, -, -, panicked⟩
    · rw [panicked, before]
    · cases impossible
    · rw [panicked, before]
    · rw [panicked, before, Bool.true_or]
  · obtain ⟨ackedPacketID, rest, held⟩ := List.exists_cons_of_ne_nil holding
    unfold Handoff.step handOff
    simp only [held, Channel.send_eq_panics.mpr closed]

theorem run_harmed {es : List Event} (held : ¬ Run.Always step ClosesFree s es) :
    (Run.run step s es).Harmed := by
  induction es generalizing s with
  | nil => exact (held trivial).elim
  | cons e es ih =>
      by_cases free : s.ClosesFree e
      · exact ih fun rest => held ⟨free, rest⟩
      · exact Run.run_invariant (harmed_of_not_closesFree free) (fun s e harmed => harmed.step e) es

theorem run_unharmed {es : List Event} (unharmed : s.Unharmed) (orderly : s.Orderly)
    (free : Run.Always step ClosesFree s es) : (Run.run step s es).Unharmed :=
  (free.run_invariant (I := fun s => s.Unharmed ∧ s.Orderly) ⟨unharmed, orderly⟩
    fun _ e both free => ⟨both.1.step both.2 free, both.2.step e⟩).1

/-- No handler that finds the channel in the run sends on it after it has been closed, also when
those that still hold it come to their sends. -/
def NeverHitsClosed (s : Handoff) (es : List Event) : Prop :=
  ∀ sends, (∀ e ∈ sends, e = .handOff) → (Run.run step s (es ++ sends)).panicked = false

/-- **No closed channel is hit**, in any interleaving, if and only if `waitForAck` closes the
channel only while no handler holds it. -/
theorem neverHitsClosed_iff (packetID : GoString) (ackTimeout : Nat) (es : List Event) :
    (initial packetID ackTimeout).NeverHitsClosed es ↔
      Run.Always step ClosesFree (initial packetID ackTimeout) es := by
  constructor
  · intro never
    by_contra held
    have calm := never [.handOff] fun e mem => List.mem_singleton.mp mem
    rw [Run.run_append, Run.run_cons, Run.run_nil, (run_harmed held).panicked] at calm
    cases calm
  · intro free sends only
    refine (run_unharmed ⟨rfl, fun closed => by cases closed⟩ (orderly_initial _ _) ?_).1
    refine Run.always_append.mpr ⟨free, ?_⟩
    generalize Run.run step (initial packetID ackTimeout) es = s
    induction sends generalizing s with
    | nil => trivial
    | cons e sends ih =>
        refine ⟨fun close => ?_, ih (fun e mem => only e (List.mem_cons_of_mem _ mem)) _⟩
        rw [only e List.mem_cons_self] at close
        cases close

end Closed

/-- Two acknowledgements of one packet: the second one's handler looks the channel up after the
first one has been received, and sends after the channel has been closed. -/
def twoAcks : List Event :=
  [.sendPacket false, .register, .arm, .lookUp, .handOff, .receive, .lookUp, .remove, .close]

theorem twoAcks_hit_closed : ¬ (initial (str "packet") 1).NeverHitsClosed twoAcks := by
  intro never
  have calm := never [.handOff] fun e mem => List.mem_singleton.mp mem
  have hit : (Run.run step (initial (str "packet") 1) (twoAcks ++ [.handOff])).panicked = true := by
    decide +kernel
  rw [hit] at calm
  cases calm

/-! ## An acknowledged packet -/

section Acknowledged

/-- An acknowledgement is looked up once the channel is registered, and the timer does not fire
while one is in the channel that the goroutine has not come to take. -/
def InTime (s : Handoff) (e : Event) : Prop :=
  (e = .lookUp → s.waiter ≠ .spawned) ∧
    (e = .fire → s.waiter = .polling → s.ackReceived.buffer = [])

/-- The channel of a packet carries acknowledgements of that packet. -/
def Own (s : Handoff) : Prop :=
  (∀ ackedPacketID ∈ s.holding, ackedPacketID = s.packetID) ∧
    ∀ ackedPacketID ∈ s.ackReceived.buffer, ackedPacketID = s.packetID

theorem Own.first (own : s.Own) {ackedPacketID : GoString} {rest : List GoString}
    (held : s.holding = ackedPacketID :: rest) : ackedPacketID = s.packetID :=
  own.1 ackedPacketID (by rw [held]; exact List.mem_cons_self)

theorem Own.received (own : s.Own) {ackedPacketID : GoString} {buffer : List GoString}
    (filled : s.ackReceived.buffer = ackedPacketID :: buffer) : ackedPacketID = s.packetID :=
  own.2 ackedPacketID (by rw [filled]; exact List.mem_cons_self)

theorem Own.rest (own : s.Own) {ackedPacketID : GoString} {rest : List GoString}
    (held : s.holding = ackedPacketID :: rest) : ∀ id ∈ rest, id = s.packetID := by
  intro id mem
  apply own.1 id
  rw [held]
  exact List.mem_cons_of_mem _ mem

theorem Moves.own (moves : s.Moves e s') (own : s.Own) : s'.Own := by
  cases moves with
  | receives ackedPacketID buffer _ filled =>
      refine ⟨own.1, fun id mem => own.2 id ?_⟩
      rw [filled]
      exact List.mem_cons_of_mem _ mem
  | finds =>
      refine ⟨fun id mem => ?_, own.2⟩
      rcases List.mem_append.mp mem with before | new
      · exact own.1 id before
      · exact List.mem_singleton.mp new
  | panics ackedPacketID rest held _ => exact ⟨own.rest held, own.2⟩
  | handsOver ackedPacketID rest held _ _ => exact ⟨own.rest held, own.2⟩
  | buffers ackedPacketID rest held _ _ =>
      refine ⟨own.rest held, fun id mem => ?_⟩
      rcases List.mem_append.mp mem with before | new
      · exact own.2 id before
      · rw [List.mem_singleton.mp new]
        exact own.first held
  | _ => exact own

theorem Own.step (own : s.Own) (e : Event) : (s.step e).Own := (s.moves_step e).own own

/-- An acknowledgement of the packet is what the goroutine waits for. -/
theorem take_own {ackedPacketID : GoString} (mine : ackedPacketID = s.packetID) :
    s.take ackedPacketID = { s with waiter := .acked } := by
  unfold take
  rw [if_pos mine]

/-- What holds where the goroutine is, in a run whose steps are in time: no acknowledgement is
handled before the channel is registered, and until the timer has fired one that has been handled is
in the channel or has been taken. -/
def Phased (s : Handoff) : Prop :=
  match s.waiter with
  | .sending | .spawned =>
      s.registered = false ∧ s.holding = [] ∧ s.handled = 0 ∧ s.fired = false ∧ s.resent = false
  | .selecting =>
      s.registered = true ∧ s.fired = false ∧ s.resent = false ∧
        (0 < s.handled → s.ackReceived.buffer ≠ [])
  | .polling =>
      s.registered = true ∧ s.resent = false ∧
        (s.fired = false → 0 < s.handled → s.ackReceived.buffer ≠ [])
  | .parked => s.registered = true ∧ s.fired = false ∧ s.resent = false ∧ s.handled = 0
  | .acked => s.registered = true ∧ s.resent = false
  | .timedOut => s.registered = true ∧ s.resent = false ∧ s.fired = true
  | .closing resends => s.resent = false ∧ (resends = true → s.fired = true)
  | .resending => s.fired = true
  | .returned => s.fired = false → s.resent = false

theorem phased_initial (packetID : GoString) (ackTimeout : Nat) :
    (initial packetID ackTimeout).Phased := ⟨rfl, rfl, rfl, rfl, rfl⟩

theorem Moves.phased (moves : s.Moves e s') (phased : s.Phased) (own : s.Own)
    (inTime : s.InTime e) : s'.Phased := by
  have here := phased
  unfold Phased at here
  cases moves with
  | idle => exact phased
  | sends fails sending =>
      rw [sending] at here
      cases fails with
      | false => exact here
      | true => exact fun _ => here.2.2.2.2
  | skips spawned _ =>
      rw [spawned] at here
      exact fun _ => here.2.2.2.2
  | registers spawned _ =>
      rw [spawned] at here
      refine ⟨rfl, here.2.2.2.1, here.2.2.2.2, fun handled => ?_⟩
      exact (Nat.ne_of_gt handled here.2.2.1).elim
  | arms selecting =>
      rw [selecting] at here
      exact ⟨here.1, here.2.2.1, fun _ => here.2.2.2⟩
  | parks polling empty pending =>
      rw [polling] at here
      refine ⟨here.1, pending, here.2.1, ?_⟩
      by_contra handled
      exact here.2.2 pending (Nat.pos_of_ne_zero handled) empty
  | fires polling =>
      rw [polling] at here
      unfold Phased
      simp only [polling]
      exact ⟨here.1, here.2.1, fun pending => Bool.noConfusion pending⟩
  | firesParked parked =>
      rw [parked] at here
      exact ⟨here.1, here.2.2.1, rfl⟩
  | receives ackedPacketID buffer polling filled =>
      rw [polling] at here
      rw [take_own]
      · exact ⟨here.1, here.2.1⟩
      · exact own.received filled
  | timesOut polling fired =>
      rw [polling] at here
      exact ⟨here.1, here.2.1, fired⟩
  | stops waiting =>
      rcases waiting with polling | parked
      · rw [polling] at here
        exact fun _ => here.2.1
      · rw [parked] at here
        exact fun _ => here.2.2.1
  | removes acked =>
      rw [acked] at here
      exact ⟨here.2, fun resends => Bool.noConfusion resends⟩
  | removesLate timedOut =>
      rw [timedOut] at here
      exact ⟨here.2.1, fun _ => here.2.2⟩
  | closes resends closing =>
      rw [closing] at here
      cases resends with
      | true => exact here.2 rfl
      | false => exact fun _ => here.1
  | resends fails resending =>
      rw [resending] at here
      exact fun pending => Bool.noConfusion (pending.symm.trans here)
  | finds sent registered =>
      -- Before the channel is registered no handler finds it.
      unfold Phased at phased ⊢
      cases waiter : s.waiter <;> simp_all
  | misses sent unregistered =>
      have registering := inTime.1 rfl
      unfold Phased at phased ⊢
      cases waiter : s.waiter <;> simp_all
  | panics ackedPacketID rest held _ =>
      unfold Phased at phased ⊢
      cases waiter : s.waiter <;> simp_all
  | handsOver ackedPacketID rest held _ parked =>
      rw [parked] at here
      rw [take_own]
      · exact ⟨here.1, here.2.2.1⟩
      · exact own.first held
  | buffers ackedPacketID rest held _ busy =>
      unfold Phased at phased ⊢
      cases waiter : s.waiter <;> simp_all

theorem Phased.step (phased : s.Phased) (own : s.Own) (inTime : s.InTime e) : (s.step e).Phased :=
  (s.moves_step e).phased phased own inTime

/-- The acknowledgement is in the channel and the timer has not fired, or it has been taken, or the
goroutine has returned; and the message has not been sent again. -/
def Settled (s : Handoff) : Prop :=
  s.resent = false ∧
    match s.waiter with
    | .selecting => s.ackReceived.buffer ≠ []
    | .polling => s.fired = false ∧ s.ackReceived.buffer ≠ []
    | .acked | .closing false | .returned => True
    | _ => False

theorem Phased.settled (phased : s.Phased) (handled : 0 < s.handled) (pending : s.fired = false) :
    s.Settled := by
  unfold Phased Settled at *
  cases waiter : s.waiter with
  | closing resends => cases resends <;> simp_all
  | _ => simp_all

theorem Moves.settled (moves : s.Moves e s') (settled : s.Settled) (own : s.Own)
    (inTime : s.InTime e) : s'.Settled := by
  have still := settled.1
  have here := settled.2
  cases moves with
  | idle => exact settled
  | sends fails sending =>
      rw [sending] at here
      exact here.elim
  | skips spawned _ => exact ⟨still, trivial⟩
  | registers spawned _ =>
      rw [spawned] at here
      exact here.elim
  | arms selecting =>
      rw [selecting] at here
      exact ⟨still, rfl, here⟩
  | parks polling empty _ =>
      rw [polling] at here
      exact (here.2 empty).elim
  | fires polling =>
      rw [polling] at here
      exact (here.2 (inTime.2 rfl polling)).elim
  | firesParked parked =>
      rw [parked] at here
      exact here.elim
  | receives ackedPacketID buffer _ filled =>
      rw [take_own]
      · exact ⟨still, trivial⟩
      · exact own.received filled
  | timesOut polling fired =>
      rw [polling] at here
      exact Bool.noConfusion (here.1.symm.trans fired)
  | stops => exact ⟨still, trivial⟩
  | removes => exact ⟨still, trivial⟩
  | removesLate timedOut =>
      rw [timedOut] at here
      exact here.elim
  | closes resends closing =>
      rw [closing] at here
      cases resends with
      | true => exact here.elim
      | false => exact ⟨still, trivial⟩
  | resends fails resending =>
      rw [resending] at here
      exact here.elim
  | finds => exact settled
  | misses => exact settled
  | panics => exact settled
  | handsOver ackedPacketID rest held _ parked =>
      rw [parked] at here
      exact here.elim
  | buffers ackedPacketID rest held _ busy =>
      -- One more acknowledgement in the channel leaves it filled.
      unfold Settled
      cases waiter : s.waiter with
      | closing resends => cases resends <;> simp_all
      | _ => simp_all

theorem Settled.step (settled : s.Settled) (own : s.Own) (inTime : s.InTime e) :
    (s.step e).Settled := (s.moves_step e).settled settled own inTime

/-- If an acknowledgement of the packet has been handled after the first part of a run, and the
timer has not fired by then, the message is not sent again in the second part. -/
def NotResent (s : Handoff) (es more : List Event) : Prop :=
  0 < (Run.run step s es).handled → (Run.run step s es).fired = false →
    (Run.run step s (es ++ more)).resent = false

/-- **An acknowledged packet is not sent again**, in any interleaving whose steps are in time. -/
theorem notResent_of_inTime (packetID : GoString) (ackTimeout : Nat) (es more : List Event)
    (inTime : Run.Always step InTime (initial packetID ackTimeout) (es ++ more)) :
    (initial packetID ackTimeout).NotResent es more := by
  intro handled pending
  obtain ⟨before, after⟩ := Run.always_append.mp inTime
  have own : (initial packetID ackTimeout).Own := by
    constructor
    · intro id mem
      cases mem
    · intro id mem
      cases mem
  obtain ⟨phased, own'⟩ := before.run_invariant (I := fun s : Handoff => s.Phased ∧ s.Own)
    ⟨phased_initial packetID ackTimeout, own⟩
    fun s e both inTime => ⟨both.1.step both.2 inTime, both.2.step e⟩
  rw [Run.run_append]
  exact (after.run_invariant (I := fun s : Handoff => s.Settled ∧ s.Own)
    ⟨phased.settled handled pending, own'⟩
    fun s e both inTime => ⟨both.1.step both.2 inTime, both.2.step e⟩).1.1

instance (s : Handoff) (e : Event) : Decidable (s.InTime e) :=
  inferInstanceAs (Decidable ((_ → _) ∧ (_ → _ → _)))

theorem notResent_received : (initial (str "packet") 1).NotResent
    [.sendPacket false, .register, .arm, .lookUp, .handOff] [.receive, .fire, .remove, .close] :=
  notResent_of_inTime _ _ _ _ (by decide +kernel)

/-- An acknowledgement that is handled before the goroutine has registered its channel is lost. -/
theorem resent_early_ack : ¬ (initial (str "packet") 1).NotResent [.sendPacket false, .lookUp]
    [.register, .arm, .fire, .timeOut, .remove, .close, .resend false] := by
  intro notResent
  have again : (Run.run step (initial (str "packet") 1) ([.sendPacket false, .lookUp] ++
      [.register, .arm, .fire, .timeOut, .remove, .close, .resend false])).resent = true := by
    decide +kernel
  rw [notResent (by decide +kernel) (by decide +kernel)] at again
  cases again

end Acknowledged

/-! ## Whole calls

The steps of `Node.waitForAck` and `Node.deliverAck`, which take a round of the loop or a hand-off
as a whole, do to the map what runs of the steps here do. -/

section Whole

/-- The entry of the packet in `ackChannel`, with the acknowledgement in the buffer of its channel.
One that has been taken still counts as there until the channel is removed. -/
def entry (s : Handoff) : Option (Option GoString) :=
  if s.registered then
    some (if s.waiter = .acked then some s.packetID else s.ackReceived.buffer.head?)
  else none

/-- `Node.deliverAck` looks the channel up and sends on it, or waits for room. -/
theorem deliverAck_entry {n : Node} (orderly : s.Orderly) (own : s.Own) (sent : s.waiter ≠ .sending)
    (alone : s.holding = []) (capacity : s.ackReceived.capacity = 1)
    (same : n.ackChannel.get s.packetID = s.entry) :
    (n.deliverAck s.packetID).ackChannel.get s.packetID =
      (Run.run Handoff.step s [.lookUp, .handOff]).entry := by
  rw [Run.run_cons, Run.run_cons, Run.run_nil]
  unfold Handoff.step Node.deliverAck
  dsimp only
  rw [if_neg sent, same]
  cases registered : s.registered with
  | false =>
      have none : s.entry = none := by
        unfold entry
        rw [registered]
        rfl
      rw [none]
      dsimp only
      rw [same, none, if_neg Bool.false_ne_true]
      simp only [alone]
      rfl
  | true =>
      have opened : s.ackReceived.closed = false := by
        by_contra closed
        have removed := (orderly.closed (Bool.eq_true_of_not_eq_false closed)).1
        rw [registered] at removed
        cases removed
      have some : ∃ buffered, s.entry = .some buffered := by
        unfold entry
        rw [registered]
        exact ⟨_, rfl⟩
      obtain ⟨buffered, there⟩ := some
      rw [there]
      simp only [FinMap.get_add_self, alone, if_true, List.nil_append]
      unfold handOff
      cases buffer : s.ackReceived.buffer with
      | nil =>
          have sends := Channel.send_empty opened buffer (by omega) s.packetID
          dsimp only
          rw [sends]
          dsimp only
          split
          · unfold take entry
            simp
          · unfold entry
            simp
      | cons first rest =>
          have mine : first = s.packetID := own.2 first (by rw [buffer]; simp)
          have waits : s.ackReceived.send s.packetID = .waits := by
            unfold Channel.send
            rw [opened, buffer, capacity]
            simp
          dsimp only
          rw [waits]
          unfold entry
          simp [buffer, mine]

/-- `Node.waitForAck` from its start to its loop registers the channel. -/
theorem waitForAck_begins_entry {n : Node} (neighbor : NeighborChoice) (c : SendChoice)
    (pkt : Packet) (sentTo : GoString) (spawned : s.waiter = .spawned)
    (empty : s.ackReceived.buffer = [])
    (packet : pkt.header.packetID = s.packetID) (timeout : n.ackTimeout = s.ackTimeout)
    (same : n.ackChannel.get s.packetID = s.entry) :
    (n.waitForAck neighbor c .begins pkt sentTo false).1.ackChannel.get s.packetID =
      (s.step .register).entry := by
  unfold Handoff.step Node.waitForAck
  dsimp only
  rw [if_pos spawned, timeout]
  split
  · rw [same]
    unfold entry
    simp [spawned]
  · rw [packet, FinMap.get_add_self]
    unfold entry
    simp [empty]

/-- `Node.waitForAck` with an acknowledgement in the channel takes it, and removes and closes the
channel. -/
theorem waitForAck_acked_entry {n : Node} (neighbor : NeighborChoice) (c : SendChoice)
    (pkt : Packet) (sentTo : GoString) (polling : s.waiter = .polling)
    (registered : s.registered = true) (buffer : s.ackReceived.buffer = [s.packetID])
    (packet : pkt.header.packetID = s.packetID)
    (same : n.ackChannel.get s.packetID = s.entry) :
    (n.waitForAck neighbor c .acked pkt sentTo true).1.ackChannel.get s.packetID =
      (Run.run Handoff.step s [.receive, .remove, .close]).entry := by
  have there : s.entry = some (some s.packetID) := by
    unfold entry
    simp [registered, polling, buffer]
  rw [there] at same
  simp [Handoff.step, Node.waitForAck, take, entry, packet, same, polling, buffer,
    FinMap.get_remove]

/-- `Node.waitForAck` at its timeout removes and closes the channel. -/
theorem waitForAck_timesOut_entry {n : Node} (neighbor : NeighborChoice) (c : SendChoice)
    (pkt : Packet) (sentTo : GoString) (polling : s.waiter = .polling)
    (packet : pkt.header.packetID = s.packetID) :
    (n.waitForAck neighbor c .timesOut pkt sentTo true).1.ackChannel.get s.packetID =
      (Run.run Handoff.step s [.fire, .timeOut, .remove, .close]).entry := by
  cases failed : c.sendError <;>
    simp [Handoff.step, Node.waitForAck, entry, packet, polling, failed, FinMap.get_remove]

end Whole

end Handoff

end Peerster.Gossip
