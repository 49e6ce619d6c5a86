import NsqClient.Conn

set_option relaxedAutoImplicit false
set_option autoImplicit false

/-!
# Logs

What can be read off the log of a connection, and how a log grows.

## Main definitions

* `NsqClient.Since` — how a log grew.
* `NsqClient.handshakes`, `NsqClient.reply` — the handshake commands written, and the reply to
  `IDENTIFY`.
* `NsqClient.Quiet` — an entry that does not concern the handshake.
* `NsqClient.writeOf`, `NsqClient.firstWrite` — the writes, and the first of them.
* `NsqClient.bytesRead` — the bytes read from a stream.
* `NsqClient.Inert` — an entry that is neither a read nor a response.
-/

namespace NsqClient

/-! ## Logs that grow -/

/-- The log grew from `log` to `log'`, by entries that have the property `P`. -/
def Since (P : Obs → Prop) (log log' : List Obs) : Prop :=
  ∃ tail, log' = log ++ tail ∧ ∀ o ∈ tail, P o

namespace Since

variable {P Q : Obs → Prop} {log log₁ log₂ : List Obs}

theorem refl (P : Obs → Prop) (log : List Obs) : Since P log log :=
  ⟨[], (List.append_nil log).symm, nofun⟩

theorem append {tail : List Obs} (h : ∀ o ∈ tail, P o) : Since P log (log ++ tail) :=
  ⟨tail, rfl, h⟩

theorem snoc {o : Obs} (h : P o) : Since P log (log ++ [o]) :=
  append fun o' ho' => by rwa [List.mem_singleton.mp ho']

theorem trans (h₁ : Since P log log₁) (h₂ : Since P log₁ log₂) : Since P log log₂ := by
  obtain ⟨tail₁, rfl, htail₁⟩ := h₁
  obtain ⟨tail₂, rfl, htail₂⟩ := h₂
  refine ⟨tail₁ ++ tail₂, List.append_assoc _ _ _, ?_⟩
  intro o ho
  rcases List.mem_append.mp ho with ho | ho
  · exact htail₁ o ho
  · exact htail₂ o ho

theorem mono (h : Since P log log₁) (himp : ∀ o, P o → Q o) : Since Q log log₁ := by
  obtain ⟨tail, hlog, htail⟩ := h
  exact ⟨tail, hlog, fun o ho => himp o (htail o ho)⟩

end Since

/-! ## Entries -/

/-- The handshake command an entry of the log stands for. -/
def handshakeOf : Obs → Option Handshake
  | .handshake h _ => some h
  | _ => none

/-- The text a call of `get_response` returned. -/
def responseOf : Obs → Option String
  | .response (.response resp) => some resp
  | _ => none

/-- The handshake commands written. -/
def handshakes (log : List Obs) : List Handshake := log.filterMap handshakeOf

/-- The reply to `IDENTIFY`: the first response. -/
def reply (json : Json) (log : List Obs) : Option NsqdConfig :=
  (log.findSome? responseOf).bind json.fromStr

/-- Neither a handshake command nor a response. -/
def Quiet (o : Obs) : Prop := handshakeOf o = none ∧ responseOf o = none

/-- What a read leaves in the log does not concern the handshake. -/
theorem quiet_read (k : Stream) (bs : List UInt8) : ∀ o ∈ [Obs.read k bs], Quiet o := by
  intro o ho
  rw [List.mem_singleton.mp ho]
  exact ⟨rfl, rfl⟩

/-- What a write leaves in the log does not concern the handshake. -/
theorem quiet_wrote (k : Stream) (offered : List UInt8) (res : WriteResult) :
    ∀ o ∈ [Obs.wrote k offered res], Quiet o := by
  intro o ho
  rw [List.mem_singleton.mp ho]
  exact ⟨rfl, rfl⟩

theorem findSome_of_quiet {log tail : List Obs} (h : ∀ o ∈ tail, Quiet o) :
    (log ++ tail).findSome? responseOf = log.findSome? responseOf := by
  have htail : tail.findSome? responseOf = none := by
    rw [List.findSome?_eq_none_iff]
    exact fun o ho => (h o ho).2
  rw [List.findSome?_append, htail, Option.or_none]

/-- Not a write to a stream other than `k`. -/
def WritesTo (k : Stream) (o : Obs) : Prop := ∀ k' offered res, o = .wrote k' offered res → k' = k

/-! ## Writes -/

/-- A write: the stream, the bytes offered and the result. -/
def writeOf : Obs → Option (Stream × List UInt8 × WriteResult)
  | .wrote k offered res => some (k, offered, res)
  | _ => none

/-- The first write. -/
def firstWrite (log : List Obs) : Option (Stream × List UInt8 × WriteResult) :=
  log.findSome? writeOf

/-- An entry of a log that grew is in the old part, or the old part and what is before the entry in
the new one precede it. -/
theorem split_append {log tail pre post : List Obs} {o : Obs}
    (h : log ++ tail = pre ++ o :: post) :
    (∃ post', log = pre ++ o :: post') ∨
      ∃ mid, pre = log ++ mid ∧ tail = mid ++ o :: post := by
  rcases List.append_eq_append_iff.mp h with ⟨mid, hpre, htail⟩ | ⟨mid, hlog, hmid⟩
  · exact .inr ⟨mid, hpre, htail⟩
  · cases mid with
    | nil =>
      rw [List.append_nil] at hlog
      exact .inr ⟨[], by rw [hlog, List.append_nil], hmid.symm⟩
    | cons o' mid =>
      cases hmid
      exact .inl ⟨mid, hlog⟩

/-! ## Reads -/

/-- The bytes an entry of the log brings from a stream. -/
def Obs.bytesOf (k : Stream) : Obs → List UInt8
  | .read k' bs => if k' = k then bs else []
  | _ => []

/-- All the bytes read from a stream, by the log. -/
def bytesRead (k : Stream) (log : List Obs) : List UInt8 := log.flatMap (Obs.bytesOf k)

/-- An entry that is neither a read nor a response. -/
def Inert (o : Obs) : Prop := (∀ k bs, o ≠ .read k bs) ∧ ∀ resp, o ≠ .response resp

theorem inert_disconnected : Inert .disconnected := ⟨nofun, nofun⟩

theorem inert_shutdown (k : Stream) : Inert (.shutdown k) := ⟨nofun, nofun⟩

theorem bytesRead_append (k : Stream) (log log' : List Obs) :
    bytesRead k (log ++ log') = bytesRead k log ++ bytesRead k log' := by
  simp [bytesRead]

theorem bytesRead_read (k : Stream) (bs : List UInt8) : bytesRead k [.read k bs] = bs := by
  simp [bytesRead, Obs.bytesOf]

theorem bytesRead_eq_nil {k : Stream} {log : List Obs} (h : ∀ o ∈ log, ∀ bs, o ≠ .read k bs) :
    bytesRead k log = [] := by
  rw [bytesRead, List.flatMap_eq_nil_iff]
  intro o ho
  cases o with
  | read k' bs =>
    refine if_neg ?_
    rintro rfl
    exact h _ ho bs rfl
  | _ => rfl

theorem bytesRead_since {k : Stream} {log log' : List Obs}
    (h : Since (fun o => ∀ bs, o ≠ .read k bs) log log') : bytesRead k log' = bytesRead k log := by
  obtain ⟨tail, rfl, htail⟩ := h
  rw [bytesRead_append, bytesRead_eq_nil htail, List.append_nil]

end NsqClient
