import K2Cache.Lib.Act
import K2Cache.Lib.Stream

/-!
# Reading requests from a socket

A socket is what happens at it, in order: bytes arrive, a call is interrupted, the stream
ends, an error occurs. `recv` returns what has arrived, or its error; with nothing left to
happen it waits. A request is four bytes of its size and the bytes of its body.

`Message::deserialize` parses the buffer of a message, and is not followed here.
-/

namespace K2Cache

open Lib

/-! ## The socket -/

inductive SocketEvent where
  | arrived (first : UInt8) (more : Bytes)
  | interrupted
  | endOfStream
  | failed
deriving DecidableEq, Repr

abbrev Socket := List SocketEvent

/-- What `recv` returns: the bytes it has written, or the error, which may be `EINTR`. -/
inductive Received where
  | bytes (bs : Bytes)
  | error (eintr : Bool)
deriving DecidableEq, Repr

/-- A socket with some bytes in front. -/
def Socket.pushFront (s : Socket) : Bytes → Socket
  | [] => s
  | b :: bs => .arrived b bs :: s

/-- `recv` of up to `len` bytes; what has arrived beyond them stays. -/
def recv (len : ℕ) (s : Socket) : Option (Received × Socket) :=
  if len = 0 then some (.bytes [], s)
  else match s with
  | [] => none
  | .arrived b bs :: s => some (.bytes ((b :: bs).take len), Socket.pushFront s ((b :: bs).drop len))
  | .interrupted :: s => some (.error true, s)
  | .endOfStream :: s => some (.bytes [], .endOfStream :: s)
  | .failed :: s => some (.error false, s)

/-! ## read_nbytes_from_socket -/

/-- Why a call has not returned. -/
inductive ReadHalt where
  | waiting
  | outsideBuffer
  | outOfFuel
deriving DecidableEq, Repr

/-- The buffer a call writes to, and the socket. -/
structure ReadState where
  buffer : Bytes
  socket : Socket
deriving DecidableEq

/-- Bytes are written from an offset on, if the buffer has room for them. -/
def writeBuffer (buffer : Bytes) (offset : ℕ) (bs : Bytes) : Option Bytes :=
  if offset + bs.length ≤ buffer.length then some (buffer.take offset ++ bs ++ buffer.drop (offset + bs.length))
  else none

/-- The loop of `read_nbytes_from_socket`. -/
def readLoop (bytesToRead : ℕ) : ℕ → ℕ → Act ReadHalt ReadState Bool
  | 0, _, st => (.error .outOfFuel, st)
  | fuel + 1, offset, st =>
    match recv (bytesToRead - offset) st.socket with
    | none => (.error .waiting, st)
    | some (.error eintr, socket) =>
      let st := { st with socket }
      if eintr then readLoop bytesToRead fuel offset st else (.ok false, st)
    | some (.bytes bs, socket) =>
      match writeBuffer st.buffer offset bs with
      | none => (.error .outsideBuffer, st)
      | some buffer =>
        if bs.length = 0 then (.ok false, ⟨buffer, socket⟩)
        else if offset + bs.length = bytesToRead then (.ok true, ⟨buffer, socket⟩)
        else readLoop bytesToRead fuel (offset + bs.length) ⟨buffer, socket⟩

/-- `read_nbytes_from_socket`; a round that goes on has used up an event. -/
def readNbytesFromSocket (bytesToRead : ℕ) : Act ReadHalt ReadState Bool := fun st =>
  readLoop bytesToRead (st.socket.length + 1) 0 st

/-! ## ClientReqHandlerImpl -/

structure Message where
  messageSize : UInt32
  buffer : Bytes
deriving DecidableEq, Repr

/-- The constructor. -/
def Message.construct (messageSize : UInt32) : Message := ⟨messageSize, List.replicate messageSize.toNat 0⟩

namespace ClientReqHandlerImpl

/-- The second half of `get_next_message`, from the message on. -/
def readMessage (message : Message) (socket : Socket) : Except ReadHalt (Option Message) × Socket :=
  match readNbytesFromSocket message.messageSize.toNat ⟨message.buffer, socket⟩ with
  | (.error e, st) => (.error e, st.socket)
  | (.ok false, st) => (.ok none, st.socket)
  | (.ok true, st) => (.ok (some { message with buffer := st.buffer }), st.socket)

/-- `get_next_message`; the size is in network order. -/
def getNextMessage : Act ReadHalt Socket (Option Message) := fun socket =>
  match readNbytesFromSocket 4 ⟨List.replicate 4 0, socket⟩ with
  | (.error e, st) => (.error e, st.socket)
  | (.ok false, st) => (.ok none, st.socket)
  | (.ok true, st) => readMessage (.construct (UInt32.ofNat (fromBigEndian st.buffer))) st.socket

/-- Some calls of `get_next_message`, one after the other. -/
def getMessages : ℕ → Act ReadHalt Socket (List (Option Message))
  | 0 => pure []
  | n + 1 => do
    let message ← getNextMessage
    let messages ← getMessages n
    pure (message :: messages)

end ClientReqHandlerImpl

end K2Cache
