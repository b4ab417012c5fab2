import ServerSsh.Libc.Decimal

/-!
# Constants and records of the two headers

`server.h` and `client.h` declare the same buffer length and the same
`connection` record.  The two programs keep the fields of the record that the
functions of this development read: the two addresses, the two descriptors and
the two pointers to the key material.  A message buffer is a `Buf` of
`MAX_COMMAND_LENGHT` bytes, and `key` and `iv` point to such buffers.

An `Arrival` is the outcome of a `read` or a `recvfrom` into a message buffer.
In the code the buffer is always zeroed before the call, so what it holds after
the call is the data and zeros.
-/

namespace ServerSsh

open Libc

/-- `MAX_COMMAND_LENGHT`, in both headers. -/
abbrev maxCommandLenght : Nat := 65536

/-- `PUBLIC_KEY_P`. -/
def publicKeyP : UInt64 := 20999999

/-- `PUBLIC_KEY_G`. -/
def publicKeyG : UInt64 := 7

/-- `BROADCAST_PORT`. -/
def broadcastPort : Nat := 23456

/-- `UDP = 0 TCP = 1`. -/
inductive Mode where
  | udp
  | tcp
deriving DecidableEq, Repr

/-- `struct sockaddr_in`, with the port and the address in network byte
order. -/
structure SockaddrIn where
  sinFamily : UInt16
  sinPort : UInt16
  sinAddr : UInt32
deriving DecidableEq, Repr

/-- A message buffer. -/
abbrev MessageBuf := Buf maxCommandLenght

/-- The `connection` record. -/
structure Connection where
  client : SockaddrIn
  admin : SockaddrIn
  sockFd : Int
  connFd : Int
  key : MessageBuf
  iv : MessageBuf
deriving DecidableEq

/-! ## System calls -/

/-- The system call that sends a string. -/
inductive Output where
  | write (fd : Int) (data : Bytes)
  | sendto (fd : Int) (data : Bytes) (dest : SockaddrIn)
deriving DecidableEq

/-- The bytes handed to the kernel. -/
def Output.data : Output → Bytes
  | .write _ d => d
  | .sendto _ d _ => d

/-- In TCP mode a string is written to a connected descriptor, in UDP mode it is
sent to an address. -/
def Output.of (mode : Mode) (connFd sockFd : Int) (peer : SockaddrIn) (data : Bytes) : Output :=
  match mode with
  | .tcp => .write connFd data
  | .udp => .sendto sockFd data peer

@[simp] theorem Output.data_of (mode : Mode) (connFd sockFd : Int) (peer : SockaddrIn)
    (d : Bytes) : (Output.of mode connFd sockFd peer d).data = d := by
  cases mode <;> rfl

/-- What a successful `read` or `recvfrom` into a message buffer stores. -/
structure Packet where
  /-- The data. -/
  data : Bytes
  /-- The address of the sender, for a datagram. -/
  source : SockaddrIn
  fits : data.length ≤ maxCommandLenght

/-- The outcome of a `read` or `recvfrom`, `none` when it returns -1. -/
abbrev Arrival := Option Packet

namespace Arrival

/-- The return value. -/
def ret : Arrival → Int
  | none => -1
  | some p => p.data.length

/-- The data stored. -/
def data : Arrival → Bytes
  | none => []
  | some p => p.data

theorem data_length_le : ∀ a : Arrival, (data a).length ≤ maxCommandLenght
  | none => Nat.zero_le _
  | some p => p.fits

/-- The message buffer after the call. -/
def buffer (a : Arrival) : MessageBuf := Buf.ofBytes (data a) (data_length_le a)

/-- The peer address after the call, when the call was given a pointer to it.
In TCP mode the code calls `read`, which has no such pointer. -/
def peer (mode : Mode) (old : SockaddrIn) : Arrival → SockaddrIn
  | none => old
  | some p =>
      match mode with
      | .tcp => old
      | .udp => p.source

end Arrival

end ServerSsh
