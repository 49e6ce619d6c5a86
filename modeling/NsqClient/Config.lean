import Mathlib.Data.Nat.Notation

set_option relaxedAutoImplicit false
set_option autoImplicit false

/-!
# Configuration

What the client asks of the server, what the server grants, and the JSON in between
(`config.rs`).

## Main definitions

* `NsqClient.Config`, `NsqClient.Config.tls` — the configuration sent with `IDENTIFY`.
* `NsqClient.NsqdConfig` — the part of the reply the client acts on.
* `NsqClient.Json` — `serde_json` at these two types.
-/

namespace NsqClient

/-- The configuration sent to the server. -/
structure Config where
  clientId : Option String
  hostname : Option String
  featureNegotiation : Bool
  heartbeatInterval : Int64
  outputBufferSize : UInt64
  outputBufferTimeout : UInt32
  tlsV1 : Bool
  snappy : Bool
  deflate : Bool
  deflateLevel : UInt16
  sampleRate : UInt16
  userAgent : String
  messageTimeout : UInt32

/-- `Config::default()`, given what `get_hostname()` found. -/
def Config.default (hostname : Option String) : Config where
  clientId := hostname
  userAgent := "nsq_client"
  hostname := hostname
  deflate := false
  deflateLevel := 6
  snappy := false
  tlsV1 := false
  featureNegotiation := true
  heartbeatInterval := 30000
  messageTimeout := 0
  outputBufferSize := 16384
  outputBufferTimeout := 250
  sampleRate := 0

/-- `Config::tls`: ask for TLS. -/
def Config.tls (config : Config) : Config := { config with tlsV1 := true }

/-- The fields of the `IDENTIFY` reply that the client acts on. -/
structure NsqdConfig where
  msgTimeout : UInt64
  tlsV1 : Bool
  authRequired : Bool
  deriving DecidableEq

/-- `NsqdConfig::default()`. -/
def NsqdConfig.default : NsqdConfig := ⟨0, false, false⟩

/-- `serde_json` as the client uses it: a configuration always has a text, a reply may fail to
be one. -/
structure Json where
  /-- `serde_json::to_string(&config)`. -/
  toString : Config → String
  /-- `serde_json::from_str(&resp)`. -/
  fromStr : String → Option NsqdConfig

end NsqClient
