import MarketFeed.Packet
import MarketFeed.PoolProgress

/-! One run of the live feed: the publisher and receiver threads, the socket between
them, the normalizer's workers and the thread in `wait`, interleaved step by step.
Clocks are left out; `decoded` and `sentDatagrams` are histories. `received` moves with its
`dispatch`: `CountingFeed` takes the two apart. -/
namespace MarketFeed
open Packed

inductive PublisherPc where
  | looping
  | flushed
  | ended
  deriving DecidableEq

/-- Where the receiver stands in `receive_loop`; `left` is `num_messages - k`. -/
inductive ReceiverPc where
  | receiving
  | decoding (n left offset : Nat)
  | timedOut
  | ended
  deriving DecidableEq

def recvBufferBytes : Nat := 65536

structure LiveFeed where
  rest : List WireMsg
  locals : Publisher := {}
  publisher : PublisherPc := .looping
  sent : Nat := 0
  publisherDone : Bool := false
  socket : List (List UInt8) := []
  sentDatagrams : List (List UInt8) := []
  buf : List UInt8 := List.replicate recvBufferBytes 0
  receiver : ReceiverPc := .receiving
  datagrams : Nat := 0
  received : Nat := 0
  decoded : List WireMsg := []
  pool : Pool

namespace LiveFeed

def init (messages : List WireMsg) (numShards : Nat) (reference : Nat → Int64) : LiveFeed where
  rest := messages
  pool := { toNormalizer := Normalizer.ready numShards reference }

/-- `sendto`, when `flush` had something to send. -/
def send (f : LiveFeed) (packet : Option (List UInt8)) : LiveFeed :=
  { f with socket := f.socket ++ packet.toList, sentDatagrams := f.sentDatagrams ++ packet.toList }

def publisherStep (f : LiveFeed) : Option LiveFeed :=
  match f.publisher with
  | .looping =>
    match f.rest with
    | m :: rest =>
      let packed := f.locals.pack m
      some { f.send packed.1 with rest := rest, locals := packed.2, sent := f.sent + 1 }
    | [] =>
      let flushed := f.locals.flush
      some { f.send flushed.1 with locals := flushed.2, publisher := .flushed }
  | .flushed => some { f with publisherDone := true, publisher := .ended }
  | .ended => none

/-- What a step of the publisher can be. -/
inductive PublisherMove (f : LiveFeed) : LiveFeed → Prop
  | pack (m rest) (looping : f.publisher = .looping) (waiting : f.rest = m :: rest) :
      PublisherMove f { f.send (f.locals.pack m).1 with
        rest := rest, locals := (f.locals.pack m).2, sent := f.sent + 1 }
  | flush (looping : f.publisher = .looping) (empty : f.rest = []) :
      PublisherMove f { f.send f.locals.flush.1 with locals := f.locals.flush.2, publisher := .flushed }
  | finish (flushed : f.publisher = .flushed) :
      PublisherMove f { f with publisherDone := true, publisher := .ended }

theorem publisherStep_move {f next : LiveFeed} (step : f.publisherStep = some next) : PublisherMove f next := by
  unfold publisherStep at step
  split at step
  next looping =>
    split at step
    next m rest waiting =>
      cases step
      exact .pack m rest looping waiting
    next empty =>
      cases step
      exact .flush looping empty
  next flushed =>
    cases step
    exact .finish flushed
  next => cases step

def messageAt (f : LiveFeed) (offset : Nat) : WireMsg :=
  WireMsg.load (MsgType.ofByte ((f.buf.drop offset).headD 0)) (f.buf.drop offset)

def receiverStep (f : LiveFeed) : Option LiveFeed :=
  match f.receiver with
  | .receiving =>
    match f.socket with
    | [] => some { f with receiver := .timedOut }
    | d :: rest =>
      let buf := overwrite f.buf 0 d
      if d.length > 0 then
        some { f with
          socket := rest
          buf := buf
          datagrams := f.datagrams + 1
          receiver := .decoding d.length (packetHeader.read buf).toNat packetHeader.size }
      else some { f with socket := rest, receiver := .timedOut }
  | .decoding n left offset =>
    if 0 < left ∧ offset < n then
      let m := f.messageAt offset
      some { f with
        pool := (f.pool.dispatch m).2 -- the flag that `dispatch` returns is not looked at
        received := f.received + 1
        decoded := f.decoded ++ [m]
        receiver := .decoding n (left - 1) (offset + msgSize (MsgType.ofByte ((f.buf.drop offset).headD 0))) }
    else some { f with receiver := .receiving }
  | .timedOut => some { f with receiver := if f.publisherDone then .ended else .receiving }
  | .ended => none

/-- `recv` has returned the `d.length` bytes of `d`. -/
def take (f : LiveFeed) (d : List UInt8) (rest : List (List UInt8)) : LiveFeed :=
  { f with
    socket := rest
    buf := overwrite f.buf 0 d
    datagrams := f.datagrams + 1
    receiver := .decoding d.length (packetHeader.read (overwrite f.buf 0 d)).toNat packetHeader.size }

/-- The record at `offset` is dispatched, with `left` more to go. -/
def decodeOne (f : LiveFeed) (n left offset : Nat) : LiveFeed :=
  { f with
    pool := (f.pool.dispatch (f.messageAt offset)).2
    received := f.received + 1
    decoded := f.decoded ++ [f.messageAt offset]
    receiver := .decoding n left (offset + msgSize (MsgType.ofByte ((f.buf.drop offset).headD 0))) }

/-- What a step of the receiver can be. -/
inductive ReceiverMove (f : LiveFeed) : LiveFeed → Prop
  | silence (receiving : f.receiver = .receiving) (empty : f.socket = []) :
      ReceiverMove f { f with receiver := .timedOut }
  | blank (d rest) (receiving : f.receiver = .receiving) (head : f.socket = d :: rest) (void : d = []) :
      ReceiverMove f { f with socket := rest, receiver := .timedOut }
  | datagram (d rest) (receiving : f.receiver = .receiving) (head : f.socket = d :: rest)
      (filled : d.length > 0) : ReceiverMove f (f.take d rest)
  | decode (n left offset) (located : f.receiver = .decoding n (left + 1) offset) (inside : offset < n) :
      ReceiverMove f (f.decodeOne n left offset)
  | finish (n left offset) (located : f.receiver = .decoding n left offset)
      (finished : ¬(0 < left ∧ offset < n)) : ReceiverMove f { f with receiver := .receiving }
  | resume (timedOut : f.receiver = .timedOut) (flag : f.publisherDone = false) :
      ReceiverMove f { f with receiver := .receiving }
  | leave (timedOut : f.receiver = .timedOut) (flag : f.publisherDone = true) :
      ReceiverMove f { f with receiver := .ended }

theorem receiverStep_move {f next : LiveFeed} (step : f.receiverStep = some next) : ReceiverMove f next := by
  unfold receiverStep at step
  split at step
  next receiving =>
    split at step
    next empty =>
      cases step
      exact .silence receiving empty
    next d rest head =>
      by_cases filled : d.length > 0
      · simp only [if_pos filled,Option.some.injEq] at step
        exact step ▸ .datagram d rest receiving head filled
      · simp only [if_neg filled,Option.some.injEq] at step
        exact step ▸ .blank d rest receiving head (by simpa using filled)
  next n left offset located =>
    split at step
    next more =>
      cases step
      obtain ⟨count,rfl⟩ : ∃ count, left = count + 1 := ⟨left - 1,by omega⟩
      exact .decode n count offset located more.2
    next finished =>
      cases step
      exact .finish n left offset located finished
  next timedOut =>
    by_cases flag : f.publisherDone = true
    · simp only [if_pos flag,Option.some.injEq] at step
      exact step ▸ .leave timedOut flag
    · simp only [if_neg flag,Option.some.injEq] at step
      exact step ▸ .resume timedOut (Bool.eq_false_iff.mpr flag)
  next => cases step

/-- `wait`: both joins, then `drain_and_stop`. -/
def mainStep (f : LiveFeed) : Option LiveFeed :=
  match f.pool.drain with
  | .notCalled =>
    if f.publisher = .ended ∧ f.receiver = .ended then some { f with pool := f.pool.callDrain } else none
  | _ => f.pool.drainStep.map fun pool => { f with pool := pool }

/-- The network may lose, repeat and reorder what was sent. -/
inductive Action where
  | publisher
  | receiver
  | worker (s : Nat)
  | main
  | network (socket : List (List UInt8))

def step (f : LiveFeed) : Action → Option LiveFeed
  | .publisher => f.publisherStep
  | .receiver => f.receiverStep
  | .worker s => (f.pool.workerStep s).map fun pool => { f with pool := pool }
  | .main => f.mainStep
  | .network socket =>
    if ∀ d ∈ socket, d ∈ f.sentDatagrams then some { f with socket := socket } else none

def run (f : LiveFeed) : List Action → Option LiveFeed
  | [] => some f
  | action :: rest => (f.step action).bind fun next => next.run rest

def Along (ok : LiveFeed → Action → Prop) (f : LiveFeed) : List Action → Prop
  | [] => True
  | action :: rest => ok f action ∧ ∀ next, f.step action = some next → next.Along ok rest

theorem run_append (f : LiveFeed) (first second : List Action) :
    f.run (first ++ second) = (f.run first).bind fun next => next.run second := by
  induction first generalizing f with
  | nil => rfl
  | cons action rest ih =>
    cases taken : f.step action with
    | none => simp [run,taken]
    | some next => simp [run,taken,ih]

end LiveFeed
end MarketFeed
