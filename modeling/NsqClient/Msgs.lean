import NsqClient.Rust

set_option relaxedAutoImplicit false
set_option autoImplicit false

/-!
# Commands and messages

The commands a client can send, as the line and the list of bodies that go on the wire, and the
messages and control messages that pass between its threads (`msgs.rs`).

## Main definitions

* `NsqClient.Cmd` — a command as a line and bodies.
* `NsqClient.NsqCmd`, `NsqClient.NsqCmd.cmd`, `NsqClient.NsqCmd.msg`, `NsqClient.NsqCmd.asCmd` —
  the twelve commands and their `impl NsqCmd`.
* `NsqClient.BytesMsg` — what the decoder hands to the consumer threads.
* `NsqClient.ConnMsg` — the control messages.
-/

namespace NsqClient

/-- The protocol version, which opens every connection. -/
def VERSION : String := "  V2"

/-- A command as it goes on the wire: its line, and its bodies. -/
structure Cmd where
  /-- The line, without the newline that ends it. -/
  cmd : String
  /-- The bodies. -/
  msg : List (List UInt8)
  deriving DecidableEq

/-- The structures that implement the trait `NsqCmd`. -/
inductive NsqCmd where
  | auth (secret : String)
  | nop
  | subscribe (topic channel : String)
  | rdy (n : UInt32)
  | cls
  | identify (config : String)
  | fin (id : String)
  | touch (id : String)
  | requeue (id : String) (timeout : UInt32)
  | pub (topic : String) (body : List UInt8)
  | mpub (topic : String) (bodies : List (List UInt8))
  | dpub (topic : String) (delay : UInt32) (body : List UInt8)
  deriving DecidableEq

namespace NsqCmd

/-- `format!("{}", n)` of an unsigned number. -/
def display (n : UInt32) : String := toString n.toNat

/-- `NsqCmd::cmd`: the line of a command. -/
def cmd : NsqCmd → String
  | auth _ => "AUTH"
  | nop => "NOP"
  | subscribe topic channel => "SUB" ++ " " ++ topic ++ " " ++ channel
  | rdy n => "RDY" ++ " " ++ display n
  | cls => "CLS"
  | identify _ => "IDENTIFY"
  | fin id => "FIN" ++ " " ++ id
  | touch id => "TOUCH" ++ " " ++ id
  | requeue id timeout => "REQ" ++ " " ++ id ++ " " ++ display timeout
  | pub topic _ => "PUB" ++ " " ++ topic
  | mpub topic _ => "MPUB" ++ " " ++ topic
  | dpub topic delay _ => "DPUB" ++ " " ++ topic ++ " " ++ display delay

/-- `NsqCmd::msg`: the bodies of a command, none by default. -/
def msg : NsqCmd → List (List UInt8)
  | auth secret => [Utf8.asBytes secret]
  | identify config => [Utf8.asBytes config]
  | pub _ body => [body]
  | mpub _ bodies => bodies
  | dpub _ _ body => [body]
  | _ => []

/-- `NsqCmd::as_cmd`. -/
def asCmd (c : NsqCmd) : Cmd := ⟨c.cmd, c.msg⟩

end NsqCmd

/-- A message as the decoder hands it to the consumer threads: the message timeout, the payload of
the frame, and where the payload is kept.  The empty payload announces the end of the
connection. -/
structure BytesMsg where
  timeout : UInt64
  bytes : List UInt8
  storage : Storage
  deriving DecidableEq

/-- The payload as the `BytesMut` it is. -/
def BytesMsg.frame (m : BytesMsg) : Handle := ⟨m.bytes, m.storage⟩

/-- What a message says, wherever its payload is kept. -/
def BytesMsg.contents (m : BytesMsg) : UInt64 × List UInt8 := (m.timeout, m.bytes)

/-- What an application can tell the client by its control channel. -/
inductive ConnMsg where
  | close
  | connect (addr : String)
  | getIsConnected
  deriving DecidableEq

/-- A message as a consumer sees it. -/
structure Msg where
  timeout : UInt64
  timestamp : Int64
  attemps : UInt16
  id : String
  body : List UInt8
  deriving DecidableEq

end NsqClient
