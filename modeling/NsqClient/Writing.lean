import Mathlib.Data.List.Induction
import Mathlib.Data.List.TakeDrop
import NsqClient.Conn

set_option relaxedAutoImplicit false
set_option autoImplicit false

/-!
# What the peer receives

`write_tcp` empties the write buffer whatever the socket made of it.  So the bytes the socket has
accepted, followed by the write buffer, are the encodings of everything written as long as every
write takes the whole buffer, and no longer.

## Main definitions

* `NsqClient.cmdBytes` — the encoding of a command.
* `NsqClient.taken`, `NsqClient.accepted` — the bytes a socket accepts.
* `NsqClient.WriteStep` — the steps of a connection that writes.
* `NsqClient.Conn.Intact` — accepted bytes and write buffer are the encodings.

## Main results

* `NsqClient.Conn.wBuf_of_writeCmd` — `write_cmd` appends the encoding of the command.
* `NsqClient.Conn.writes_intact_iff` — nothing is lost if and only if every write takes
  everything.
-/

namespace NsqClient

/-! ## Encodings -/

/-- The encoding of a command: its line, and the body its list of messages asks for. -/
def cmdBytes (msg : Cmd) : List UInt8 :=
  lineBytes msg.cmd ++
    match msg.msg with
    | [] => []
    | [m] => bodyBytes m
    | ms => mmsgBytes ms

/-! ## The socket -/

/-- The bytes a socket accepts of those it was offered. -/
def taken : WriteResult → List UInt8 → List UInt8
  | .ok n, offered => offered.take n
  | .error _, _ => []

/-- A write takes everything it was offered. -/
def TakesAll (res : WriteResult) (offered : List UInt8) : Prop := taken res offered = offered

instance (res : WriteResult) (offered : List UInt8) : Decidable (TakesAll res offered) :=
  inferInstanceAs (Decidable (_ = _))

/-- All the bytes accepted, by the log. -/
def accepted (log : List Obs) : List UInt8 :=
  log.flatMap fun
    | .wrote _ offered res => taken res offered
    | _ => []

@[simp] theorem accepted_nil : accepted [] = [] := rfl

theorem accepted_append (log log' : List Obs) :
    accepted (log ++ log') = accepted log ++ accepted log' := by
  simp [accepted]

/-- A write adds what it takes. -/
theorem accepted_wrote (log : List Obs) (k : Stream) (offered : List UInt8) (res : WriteResult) :
    accepted (log ++ [.wrote k offered res]) = accepted log ++ taken res offered := by
  simp [accepted]

namespace Conn

/-- The encoder appends the encoding of the command. -/
theorem bytes_of_encodeCmd {buf buf' : BytesMut} {msg : Cmd} (h : encodeCmd buf msg = .ok buf') :
    buf'.bytes = buf.bytes ++ cmdBytes msg := by
  obtain ⟨buf₁, hline, hbytes₁⟩ := writeCmd_eq buf msg.cmd
  unfold encodeCmd at h
  rw [hline] at h
  unfold cmdBytes
  rcases hmsg : msg.msg with _ | ⟨m, _ | ⟨m', ms⟩⟩
  · rw [hmsg] at h
    cases h
    rw [hbytes₁, List.append_nil]
  · rw [hmsg] at h
    obtain ⟨buf₂, hbody, hbytes₂⟩ := writeMsg_eq buf₁ m
    have h : writeMsg buf₁ m = .ok buf' := h
    rw [hbody] at h
    cases h
    rw [hbytes₂, hbytes₁, List.append_assoc]
  · rw [hmsg] at h
    rw [bytes_of_writeMmsg h, hbytes₁, List.append_assoc]

/-- The encoder succeeds on a command with at most one body. -/
theorem encodeCmd_ok (buf : BytesMut) {msg : Cmd} (h : msg.msg.length ≤ 1) :
    ∃ buf', encodeCmd buf msg = .ok buf' := by
  obtain ⟨buf₁, hline, -⟩ := writeCmd_eq buf msg.cmd
  unfold encodeCmd
  rw [hline]
  rcases hmsg : msg.msg with _ | ⟨m, _ | ⟨m', ms⟩⟩
  · exact ⟨buf₁, rfl⟩
  · obtain ⟨buf₂, hbody, -⟩ := writeMsg_eq buf₁ m
    exact ⟨buf₂, hbody⟩
  · rw [hmsg] at h
    simp at h

/-- `write_cmd` appends the encoding of the command, and changes nothing else. -/
theorem wBuf_of_writeCmd {c c' : Conn} {msg : Cmd} (h : c.writeCmd msg = .ok c') :
    c'.wBuf.bytes = c.wBuf.bytes ++ cmdBytes msg ∧ c' = { c with wBuf := c'.wBuf } := by
  unfold Conn.writeCmd at h
  cases henc : encodeCmd c.wBuf msg with
  | error p =>
    rw [henc] at h
    cases h
  | ok buf =>
    rw [henc] at h
    cases h
    exact ⟨bytes_of_encodeCmd henc, rfl⟩

/-- `write_tcp` leaves nothing in the write buffer and notes what it offered. -/
theorem writeTcp_eq (k : Stream) (res : WriteResult) (c : Conn) :
    c.writeTcp k res = (res, { c.note (.wrote k c.wBuf.bytes res) with wBuf := c.wBuf.clear }) := by
  unfold writeTcp
  rcases res with e | _ | n <;> rfl

end Conn

/-! ## Runs of writing steps -/

/-- The steps of a connection that writes: the magic, a command, and a write on the socket with
its result. -/
inductive WriteStep where
  | magic
  | cmd (msg : Cmd)
  | tcp (res : WriteResult)

namespace WriteStep

/-- What a step does, the socket being the stream `k`. -/
def run (k : Stream) (c : Conn) : WriteStep → Except (Panic × Conn) Conn
  | magic => .ok c.magic
  | cmd msg => c.writeCmd msg
  | tcp res => .ok (c.writeTcp k res).2

/-- What a step wants the peer to receive. -/
def encoding : WriteStep → List UInt8
  | magic => Utf8.asBytes VERSION
  | cmd msg => cmdBytes msg
  | tcp _ => []

end WriteStep

/-- What a sequence of steps wants the peer to receive. -/
def encodings (steps : List WriteStep) : List UInt8 := steps.flatMap WriteStep.encoding

theorem encodings_concat (steps : List WriteStep) (st : WriteStep) :
    encodings (steps ++ [st]) = encodings steps ++ st.encoding := by
  simp [encodings]

namespace Conn

/-- A sequence of steps. -/
def writes (k : Stream) (c : Conn) (steps : List WriteStep) : Except (Panic × Conn) Conn :=
  steps.foldlM (WriteStep.run k) c

/-- The bytes accepted and the write buffer are what the steps `steps` wanted the peer to
receive. -/
def Intact (steps : List WriteStep) (c : Conn) : Prop :=
  accepted c.log ++ c.wBuf.bytes = encodings steps

/-- One more step. -/
theorem writes_concat_ok {k : Stream} {c c'' : Conn} {steps : List WriteStep} {st : WriteStep} :
    writes k c (steps ++ [st]) = .ok c'' ↔
      ∃ c', writes k c steps = .ok c' ∧ st.run k c' = .ok c'' := by
  have hcat : writes k c (steps ++ [st]) = writes k c steps >>= fun c' => st.run k c' := by
    simp only [writes, List.foldlM_append, List.foldlM_cons, List.foldlM_nil, bind_pure]
  rw [hcat]
  exact Except.bind_eq_ok

/-- The steps that fill the write buffer keep everything. -/
theorem Intact.fill {k : Stream} {c c' : Conn} {steps : List WriteStep} {st : WriteStep}
    (h : Intact steps c) (hst : ∀ res, st ≠ .tcp res) (hrun : st.run k c = .ok c') :
    Intact (steps ++ [st]) c' := by
  unfold Intact at h ⊢
  rw [encodings_concat, ← h, List.append_assoc]
  cases st with
  | magic =>
    cases hrun
    simp only [magic, bytes_writeMagic, WriteStep.encoding]
  | cmd msg =>
    obtain ⟨hbytes, hc'⟩ := wBuf_of_writeCmd hrun
    have hlog : c'.log = c.log := by rw [hc']
    rw [hbytes, hlog, WriteStep.encoding]
  | tcp res => exact absurd rfl (hst res)

/-- A write keeps everything exactly if it takes everything. -/
theorem intact_tcp_iff {k : Stream} {c : Conn} {steps : List WriteStep} {res : WriteResult}
    (h : Intact steps c) :
    Intact (steps ++ [.tcp res]) (c.writeTcp k res).2 ↔ TakesAll res c.wBuf.bytes := by
  unfold Intact at h ⊢
  rw [encodings_concat, WriteStep.encoding, List.append_nil, ← h, writeTcp_eq]
  simp only [note, accepted_wrote, BytesMut.bytes_clear, List.append_nil]
  exact List.append_right_inj _

/-- Take any sequence of steps of a connection on which nothing was written yet.  After every
beginning of it that does not panic, the bytes accepted by the socket followed by the write
buffer are the encodings of everything written, if and only if every write on the socket takes
everything that is in the write buffer at that point.

**Proof sketch.** A step that fills the buffer appends its encoding; a write on the socket moves
to the bytes accepted what the socket takes of the buffer, and drops the rest.  In one direction
this is an induction on the steps; in the other, the bytes before and after a write differ by
what was dropped. -/
theorem writes_intact_iff {k : Stream} {c₀ : Conn} (hbuf : c₀.wBuf.bytes = [])
    (hlog : c₀.log = []) (steps : List WriteStep) :
    (∀ pre c, pre <+: steps → writes k c₀ pre = .ok c → Intact pre c) ↔
      ∀ pre res post c, steps = pre ++ .tcp res :: post → writes k c₀ pre = .ok c →
        TakesAll res c.wBuf.bytes := by
  constructor
  · intro hintact pre res post c hsplit hc
    have hbefore : Intact pre c := hintact pre c ⟨_, hsplit.symm⟩ hc
    have hpre : pre ++ [.tcp res] <+: steps := ⟨post, by rw [hsplit]; simp⟩
    have hafter := hintact _ _ hpre (writes_concat_ok.mpr ⟨c, hc, rfl⟩)
    exact (intact_tcp_iff hbefore).mp hafter
  · intro htakes pre
    induction pre using List.reverseRecOn with
    | nil =>
      intro c _ hc
      cases hc
      rw [Intact, hlog, hbuf]
      rfl
    | append_singleton pre st ih =>
      intro c hpre hc
      obtain ⟨c', hc', hst⟩ := writes_concat_ok.mp hc
      have hbefore := ih c' ((List.prefix_append _ _).trans hpre) hc'
      by_cases htcp : ∃ res, st = .tcp res
      · obtain ⟨res, rfl⟩ := htcp
        cases hst
        obtain ⟨post, hpost⟩ := hpre
        have hsplit : steps = pre ++ .tcp res :: post := by
          rw [← hpost, List.append_assoc, List.singleton_append]
        exact (intact_tcp_iff hbefore).mpr (htakes pre res post c' hsplit hc')
      · exact hbefore.fill (fun res h => htcp ⟨res, h⟩) hst

/-- The magic, written in one piece. -/
theorem writes_intact_iff_magic :
    ∃ c, writes .plain (.new (.default none) [] .exact) [.magic, .tcp (.ok 4)] = .ok c ∧
      Intact [.magic, .tcp (.ok 4)] c := by
  refine ⟨_, rfl, ?_⟩
  refine (writes_intact_iff rfl rfl [.magic, .tcp (.ok 4)]).mpr ?_ _ _ (List.prefix_refl _) rfl
  intro pre res post c hsplit hc
  rcases pre with _ | ⟨st, _ | ⟨st', pre⟩⟩
  · simp at hsplit
  · simp only [List.cons_append, List.nil_append, List.cons.injEq, WriteStep.tcp.injEq] at hsplit
    obtain ⟨rfl, rfl, rfl⟩ := hsplit
    cases hc
    decide
  · simp at hsplit

/-- A short write of `RDY 5`, and a `NOP` after it: the peer reads `RDYNOP`. -/
theorem writes_not_intact_short_write :
    ∃ c, writes .plain (.new (.default none) [] .exact)
        [.cmd (NsqCmd.rdy 5).asCmd, .tcp (.ok 3), .cmd NsqCmd.nop.asCmd, .tcp (.ok 4)] = .ok c ∧
      accepted c.log = Utf8.asBytes "RDYNOP\n" ∧
      ¬ Intact
        [.cmd (NsqCmd.rdy 5).asCmd, .tcp (.ok 3), .cmd NsqCmd.nop.asCmd, .tcp (.ok 4)] c := by
  refine ⟨_, rfl, by decide, ?_⟩
  unfold Intact
  decide

end Conn

end NsqClient
