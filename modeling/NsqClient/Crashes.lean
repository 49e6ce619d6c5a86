import NsqClient.Boundaries
import NsqClient.Delivery
import NsqClient.Inbound
import NsqClient.PlaintextCarry
import NsqClient.Sizes
import NsqClient.Validity

set_option relaxedAutoImplicit false
set_option autoImplicit false

/-!
# What makes the event loop crash

Everything that can make `run` panic or exit, as conditions on the state before a step and on what
the environment answers: the list is complete, and every entry of it is a crash.  The commands of
the application are taken to fit the size field of a multiple publish; one of 2 GiB or more is on
the list.

## Main definitions

* `NsqClient.Conn.Drains` — the frames that `decode` takes off a buffer, and what it leaves.
* `NsqClient.Conn.Spoiled` — what is at the front of a buffer makes `decode` panic.
* `NsqClient.EventLoop.Refuses` — the newest response ends `run`.
* `NsqClient.EventLoop.Trips` — the steps at which `run` crashes.
* `NsqClient.EventLoop.Courteous` — what a server and an environment do that cause no crash.

## Main results

* `NsqClient.Conn.decode_error_iff`, `NsqClient.Conn.decode_ok_iff` — how `decode` ends.
* `NsqClient.EventLoop.crashes_iff` — a step crashes exactly if it is on the list.
* `NsqClient.EventLoop.not_trips` — in a courteous environment no step is.
-/

namespace NsqClient

/-! ## Commands that cannot be written -/

/-- A multiple publish fits the 32 bits of its size field, with the field itself. -/
def Cmd.Sendable (cmd : Cmd) : Prop := 2 ≤ cmd.msg.length → mmsgSize cmd.msg + 4 < 2 ^ 32

instance (cmd : Cmd) : Decidable cmd.Sendable := inferInstanceAs (Decidable (_ → _))

/-- A multiple publish of 2 GiB or more. -/
def Cmd.Bulky (cmd : Cmd) : Prop := 2 ≤ cmd.msg.length ∧ 2 ^ 31 ≤ mmsgSize cmd.msg

/-- The sum of the sizes is an `i32`: from `2 ^ 31` on it is negative, and what is to be reserved
for it is refused. -/
theorem writeMmsg_error_iff (buf : BytesMut) {msgs : List (List UInt8)}
    (hmsgs : mmsgSize msgs + 4 < 2 ^ 32) :
    (∃ p, writeMmsg buf msgs = .error p) ↔ 2 ^ 31 ≤ mmsgSize msgs := by
  constructor
  · rintro ⟨p, herr⟩
    by_contra hsmall
    obtain ⟨buf', hok⟩ := writeMmsg_ok (show mmsgSize msgs < 2 ^ 31 by omega) buf
    rw [hok] at herr
    cases herr
  · intro hlarge
    cases hwrite : writeMmsg buf msgs with
    | error p => exact ⟨p, rfl⟩
    | ok buf' =>
      have hgranted := ((writeMmsg_ok_iff buf msgs).mp ⟨buf', hwrite⟩).1
      rw [mmsgRequest_le_iff] at hgranted
      omega

namespace Conn

/-- Of the commands that fit their size field, `write_cmd` panics at the bulky ones. -/
theorem encodeCmd_error_iff (buf : BytesMut) {cmd : Cmd} (h : cmd.Sendable) :
    (∃ p, encodeCmd buf cmd = .error p) ↔ cmd.Bulky := by
  by_cases hone : cmd.msg.length ≤ 1
  · obtain ⟨buf', hok⟩ := encodeCmd_ok buf hone
    rw [hok, Cmd.Bulky]
    constructor
    · rintro ⟨p, herr⟩
      cases herr
    · rintro ⟨htwo, -⟩
      omega
  · have htwo : 2 ≤ cmd.msg.length := by omega
    obtain ⟨buf₁, hline, -⟩ := writeCmd_eq buf cmd.cmd
    have hbodies : encodeCmd buf cmd = writeMmsg buf₁ cmd.msg := by
      unfold encodeCmd
      rw [hline, Except.ok_bind]
      rcases hmsg : cmd.msg with _ | ⟨m, _ | ⟨m', ms⟩⟩
      · simp [hmsg] at hone
      · simp [hmsg] at hone
      · rfl
    rw [hbodies, writeMmsg_error_iff buf₁ (h htwo), Cmd.Bulky]
    exact ⟨fun hlarge => ⟨htwo, hlarge⟩, fun hbulky => hbulky.2⟩

/-- A pass of the loop in `write_messages` panics at the bulky commands. -/
theorem writeMessage_error_iff (k : Stream) (res : WriteResult) (c : Conn) {cmd : Cmd}
    (h : cmd.Sendable) : (∃ e, writeMessage k res c cmd = .error e) ↔ cmd.Bulky := by
  have hencode := encodeCmd_error_iff (c.note (.user c.state cmd)).wBuf h
  unfold writeMessage Conn.writeCmd
  cases henc : encodeCmd (c.note (.user c.state cmd)).wBuf cmd with
  | ok buf =>
    rw [henc] at hencode
    simpa [pure, Except.pure] using hencode
  | error p =>
    rw [henc] at hencode
    simpa using hencode

/-- The loop of `write_messages` panics if one of its commands is bulky. -/
theorem writeEach_error_iff (k : Stream) (ws : ℕ → WriteResult) {cmds : List Cmd} (c : Conn)
    (h : ∀ cmd ∈ cmds, cmd.Sendable) :
    (∃ e, writeEach k ws cmds c = .error e) ↔ ∃ cmd ∈ cmds, cmd.Bulky := by
  induction cmds generalizing ws c with
  | nil => simp [writeEach]
  | cons cmd cmds ih =>
    have hone := writeMessage_error_iff k (ws 0) c (h cmd List.mem_cons_self)
    unfold writeEach
    cases hwrite : writeMessage k (ws 0) c cmd with
    | error e =>
      rw [hwrite] at hone
      have hbulky : cmd.Bulky := hone.mp ⟨e, rfl⟩
      simp only [Except.error_bind]
      exact ⟨fun _ => ⟨cmd, List.mem_cons_self, hbulky⟩, fun _ => ⟨e, rfl⟩⟩
    | ok c' =>
      rw [hwrite] at hone
      have hlean : ¬ cmd.Bulky := by
        intro hbulky
        obtain ⟨e, herr⟩ := hone.mpr hbulky
        cases herr
      rw [Except.ok_bind, ih _ c' fun cmd' hcmd' => h cmd' (List.mem_cons_of_mem cmd hcmd')]
      simp [hlean]

/-! ## How `decode` ends -/

/-- After a read of `size` bytes `decode` takes the frames `fs` off the buffer and leaves `rest`. -/
structure Drains (st : Storage) (size : ℕ) (buf : List UInt8) (fs : List Frame)
    (rest : List UInt8) : Prop where
  bytes : buf = wire fs ++ rest
  parsed : Parsed st fs rest
  taken : ∀ f ∈ fs, f.Readable ∧ f.Within size
  stops : ¬ Attempts size rest

/-- The guards let `decode` take what is at the front of the buffer, and it cannot: the size is
below four, or the capacity is less than the size, or what is split off is a text that is not UTF-8.
-/
def Spoiled (st : Storage) (size : ℕ) (rest : List UInt8) : Prop :=
  Attempts size rest ∧
    (frameSize rest < 4 ∨ st.capacity (rest.length - 8) < frameSize rest - 4 ∨
      ∃ (f : Frame) (tail : List UInt8), rest = f.wire ++ tail ∧ f.SplitsOff st tail ∧
        ¬ f.Readable)

/-- At what breaks it a pass fails, and nowhere else. -/
theorem decodePass_fail_iff (size : ℕ) (c : Conn) :
    (∃ e, decodePass size c = .fail e) ↔ Spoiled (c.storage 0) size c.rBuf := by
  have hpass := decodePass_cases size c
  constructor
  · rintro ⟨e, hfail⟩
    rw [hfail] at hpass
    cases hpass with
    | small hattempts hsmall => exact ⟨hattempts, .inl hsmall⟩
    | part hattempts _ hcap => exact ⟨hattempts, .inr (.inl hcap)⟩
    | garbled hattempts hsplits hbuf hread =>
      exact ⟨hattempts, .inr (.inr ⟨_, _, hbuf, hsplits, hread⟩)⟩
  · rintro ⟨hattempts, hbad⟩
    by_cases hsmall : frameSize c.rBuf < 4
    · exact ⟨_, decodePass_of_small hattempts hsmall⟩
    · by_cases hcap : (c.storage 0).capacity (c.rBuf.length - 8) < frameSize c.rBuf - 4
      · exact ⟨_, decodePass_of_part hattempts (by omega) hcap⟩
      · obtain ⟨f, tail, hbuf, hsplits, hread⟩ := (hbad.resolve_left hsmall).resolve_left hcap
        have hlen : frameSize c.rBuf = f.len := by
          rw [hbuf]
          exact frameSize_wire f tail
        have hwithin : f.Within size := by
          rw [attempts_iff] at hattempts
          rw [Frame.within_iff]
          omega
        exact ⟨_, (decodePass_splitsOff hbuf hsplits hwithin).trans
          (onFrame_of_not_readable hread _ _)⟩

/-- `decode` panics exactly if something breaks it at a boundary. -/
theorem decode_error_iff (size : ℕ) (c : Conn) : (∃ e, decode size c = .error e) ↔
    ∃ rest, Boundary size c.rBuf rest ∧ Spoiled (c.storage 0) size rest := by
  constructor
  · rintro ⟨e, herr⟩
    rcases decode_terminates size c with ⟨u, -, -, hr⟩ | ⟨u, p, hpasses, hfail, -⟩
    · rw [hr] at herr
      cases herr
    · have hspoiled := (decodePass_fail_iff size u).mp ⟨p, hfail⟩
      have hstorage : u.storage = c.storage := by
        obtain ⟨fs, ht⟩ := exists_takes hpasses
        rw [ht.same]
      rcases Boundary.of_passes hpasses with hboundary | ⟨hnil, -⟩
      · rw [hstorage] at hspoiled
        exact ⟨u.rBuf, hboundary, hspoiled⟩
      · -- nothing is left to fail at
        have hattempts := hspoiled.1
        rw [hnil, attempts_iff] at hattempts
        exact absurd hattempts.2.1 (by simp)
  · rintro ⟨rest, hboundary, hspoiled⟩
    obtain ⟨u, hpasses, rfl⟩ := hboundary.exists_passes
    have hstorage : u.storage = c.storage := by
      obtain ⟨fs, ht⟩ := exists_takes hpasses
      rw [ht.same]
    rw [← hstorage] at hspoiled
    obtain ⟨e, hfail⟩ := (decodePass_fail_iff size u).mpr hspoiled
    refine ⟨e, ?_⟩
    rw [decode_of_passes hpasses, decode_eq, hfail]

/-- `decode` returns exactly if it can drain the buffer; and then it did with the frames what it
owes to them. -/
theorem decode_ok_iff (size : ℕ) (c c' : Conn) : decode size c = .ok c' ↔
    ∃ fs rest, Drains (c.storage 0) size c.rBuf fs rest ∧
      c' = { c.emitAll fs with rBuf := rest } := by
  constructor
  · intro hdecode
    rcases decode_terminates size c with ⟨u, hpasses, -, hr⟩ | ⟨u, p, -, -, hr⟩
    · rw [hr] at hdecode
      cases hdecode
      obtain ⟨fs, ht⟩ := exists_takes hpasses
      exact ⟨fs, c'.rBuf, ⟨ht.bytes, ht.parsed, fun f hf => ⟨ht.readable f hf, ht.within f hf⟩,
        not_attempts_of_decode hr⟩, ht.conn⟩
    · rw [hr] at hdecode
      cases hdecode
  · rintro ⟨fs, rest, hdrains, rfl⟩
    rw [decode_wire fs hdrains.bytes hdrains.parsed hdrains.taken,
      decode_of_not_attempts hdrains.stops]

/-- What is drained is determined by the buffer. -/
theorem Drains.unique {st : Storage} {size : ℕ} {buf rest rest' : List UInt8}
    {fs gs : List Frame} (h : Drains st size buf fs rest) (h' : Drains st size buf gs rest') :
    fs = gs ∧ rest = rest' := by
  let c : Conn := { Conn.new (.default none) [] .exact with rBuf := rest, storage := fun _ => st }
  let c' : Conn := { Conn.new (.default none) [] .exact with rBuf := rest', storage := fun _ => st }
  have hstop : decodePass size c = .ret c := decodePass_of_not_attempts h.stops
  have hstop' : decodePass size c' = .ret c' := decodePass_of_not_attempts h'.stops
  obtain ⟨hs, hfs, hrest'⟩ := frames_of_stopped (c := c) hstop h.parsed h'.parsed
    (fun g hg => (h'.taken g hg).2) (h'.bytes.symm.trans h.bytes)
  obtain ⟨hs', hgs, -⟩ := frames_of_stopped (c := c') hstop' h'.parsed h.parsed
    (fun f hf => (h.taken f hf).2) (h.bytes.symm.trans h'.bytes)
  have hnil : hs = [] := by
    have hlen := congrArg List.length hfs
    have hlen' := congrArg List.length hgs
    rw [List.length_append] at hlen hlen'
    exact List.length_eq_zero_iff.mp (by omega)
  subst hnil
  exact ⟨by simpa using hfs, by simpa [c] using hrest'.symm⟩

end Conn

namespace EventLoop

variable {α β : Type} {json : Json} {client : Client} {k : Stream} {io : Io}

/-! ## Handlers that crash -/

/-- A handler panics, or exits the process. -/
def Fatal : Except Leave α → Prop
  | .ok _ => False
  | .error (.brk _) => False
  | .error (.halt (.returned _) _) => False
  | .error (.halt (.panicked _) _) => True
  | .error (.halt .exited _) => True

@[simp] theorem not_fatal_ok (a : α) : ¬ Fatal (.ok a) := id

@[simp] theorem not_fatal_pure (a : α) : ¬ Fatal (pure a) := id

@[simp] theorem not_fatal_brk (r : EventLoop) : ¬ Fatal (.error (.brk r) : Except Leave α) := id

@[simp] theorem fatal_panicked (p : Panic) (r : EventLoop) :
    Fatal (.error (.halt (.panicked p) r) : Except Leave α) := trivial

@[simp] theorem fatal_exited (r : EventLoop) :
    Fatal (.error (.halt .exited r) : Except Leave α) := trivial

/-- One handler after another crashes if the first one does, or the second one after it. -/
theorem fatal_bind (x : Except Leave α) (f : α → Except Leave β) :
    Fatal (x >>= f) ↔ Fatal x ∨ ∃ a, x = .ok a ∧ Fatal (f a) := by
  cases x with
  | ok a => simp
  | error e =>
    cases e with
    | brk r => simp
    | halt h r => cases h <;> simp [Fatal]

/-- What only changes the state does not crash. -/
theorem fatal_bind_pure (x : Except Leave α) (f : α → β) :
    Fatal (x >>= fun a => pure (f a)) ↔ Fatal x := by
  rw [fatal_bind]
  simp

/-- A call crashes if the method of the connection panics. -/
theorem fatal_call (r : EventLoop) (x : Except (Panic × Conn) Conn) :
    Fatal (r.call x) ↔ ∃ e, x = .error e := by
  cases x <;> simp [call]

/-- A batch ends in a crash if a handler crashes. -/
theorem crashed_after_iff (evts : List Event) (x : Except Leave EventLoop) :
    Crashed (after (phaseOf k) evts x) ↔ Fatal x := by
  have hbatch : ∀ (r : EventLoop) (evts : List Event),
      ¬ Crashed { r with phase := phaseOf k evts } := fun r evts => not_crashed_of_phase rfl
  cases x with
  | ok r => simpa [after] using hbatch r evts
  | error e =>
    cases e with
    | brk r => simpa [after] using hbatch r []
    | halt h r => cases h <;> simp [after, Crashed, Fatal]

/-! ## Responses -/

/-- The newest response ends `run`: there is none, or it is an error, or it is no reply to
`IDENTIFY`, or `AUTH` is next and there is no secret. -/
def Refuses (json : Json) (client : Client) (st : State) (cfg : NsqdConfig) :
    Option Response → Prop
  | none => True
  | some (.error _) => True
  | some (.response resp) =>
    match st with
    | .identify =>
      match json.fromStr resp with
      | none => True
      | some cfg' => cfg'.tlsV1 = false ∧ cfg'.authRequired = true ∧ client.secret = none
    | .tls => cfg.authRequired = true ∧ client.secret = none
    | _ => False

/-- The choice between `AUTH` and `SUB` exits without a secret. -/
theorem fatal_authOrSubscribe (client : Client) (r : EventLoop) :
    Fatal (authOrSubscribe client r) ↔
      r.nsqdConfig.authRequired = true ∧ client.secret = none := by
  unfold authOrSubscribe
  cases r.nsqdConfig.authRequired <;> cases client.secret <;> simp

/-- Looking at a text crashes in the state `Identify`, and where `AUTH` may be next. -/
theorem fatal_onResponse (r : EventLoop) (resp : String) :
    Fatal (onResponse json client r.conn.state (resp, r)) ↔
      Refuses json client r.conn.state r.nsqdConfig (some (.response resp)) := by
  cases hst : r.conn.state with
  | identify =>
    simp only [onResponse, Refuses]
    cases json.fromStr resp with
    | none => simp
    | some cfg =>
      cases htls : cfg.tlsV1 with
      | true => simp [htls]
      | false => simp [htls, fatal_authOrSubscribe]
  | tls => simp [onResponse, Refuses, fatal_authOrSubscribe]
  | _ => simp [onResponse, Refuses]

/-- The match on the state after a read crashes where a response is due, and the newest one ends
`run`. -/
theorem fatal_response (r : EventLoop) : Fatal (response json client k r) ↔
    awaits client k r.conn.state = true ∧
      Refuses json client r.conn.state r.nsqdConfig r.conn.responses.getLast? := by
  rw [response_eq]
  by_cases hawaits : awaits client k r.conn.state = true
  · rw [if_pos hawaits]
    rcases List.eq_nil_or_concat r.conn.responses with hnil | ⟨rs, resp, hrs⟩
    · rw [getResponse_nil hnil]
      simp [hawaits, hnil, Refuses, Fatal]
    · rw [List.concat_eq_append] at hrs
      cases resp with
      | error e =>
        rw [getResponse_error hrs]
        simp [hawaits, hrs, Refuses, Fatal]
      | response resp =>
        have hlook : Fatal (onResponse json client (answer r rs resp).conn.state
            (resp, answer r rs resp)) ↔ _ := fatal_onResponse (answer r rs resp) resp
        rw [getResponse_response hrs, Except.ok_bind, hrs, List.getLast?_concat]
        simpa [hawaits, answer, Conn.note] using hlook
  · rw [if_neg hawaits]
    split_ifs <;> simp [hawaits]

/-! ## A readable connection -/

/-- Why a readable connection ends `run`. -/
inductive ReadTrips (json : Json) (client : Client) (k : Stream) (io : Io) (r : EventLoop) :
    Prop where
  /-- The vector to read into cannot be allocated. -/
  | room : isizeMax < r.conn.config.outputBufferSize.toNat → ReadTrips json client k io r
  /-- The socket is broken. -/
  | socket : io.read = .error .other → ReadTrips json client k io r
  /-- There is nothing to read, and nobody to be told. -/
  | unheard : io.read = .error .wouldBlock → io.infoOpen = false → ReadTrips json client k io r
  /-- Something breaks `decode` where it gets to. -/
  | spoiled {bs rest : List UInt8} : io.read = .ok bs → bs ≠ [] →
      Conn.Boundary bs.length (r.conn.rBuf ++ bs) rest →
      Conn.Spoiled (r.conn.storage 1) bs.length rest →
      ReadTrips json client k io r
  /-- A response is due, and the newest one ends `run`. -/
  | refuses {bs rest : List UInt8} {fs : List Frame} : io.read = .ok bs → bs ≠ [] →
      Conn.Drains (r.conn.storage 1) bs.length (r.conn.rBuf ++ bs) fs rest →
      awaits client k r.conn.state = true →
      Refuses json client r.conn.state r.nsqdConfig
        (r.conn.responses ++ fs.filterMap Conn.reply?).getLast? →
      ReadTrips json client k io r

/-- What is left after a read that brought bytes crashes with the response. -/
theorem fatal_afterRead (r : EventLoop) : Fatal (afterRead json client k r) ↔
    awaits client k r.conn.state = true ∧
      Refuses json client r.conn.state r.nsqdConfig r.conn.responses.getLast? := by
  unfold afterRead
  by_cases hstarted : r.conn.state = .started
  · simp [hstarted, awaits, pure, Except.pure]
  · rw [← fatal_response (k := k)]
    simp only [ne_eq, hstarted, not_false_eq_true, if_true, pure_bind]
    exact fatal_bind_pure _ _

/-- A read of bytes that there is room for. -/
theorem read_bytes {r : EventLoop} {b : UInt8} {bs : List UInt8} (hread : io.read = .ok (b :: bs))
    (hroom : r.conn.config.outputBufferSize.toNat ≤ isizeMax) : EventLoop.read k io r =
      match Conn.decode (b :: bs).length (r.conn.receive k (b :: bs)) with
      | .error (p, c) => .error (.halt (.panicked p) { r with conn := c })
      | .ok c => .ok { r with conn := c } := by
  have hdecode : r.conn.read k io.read = (do
      let c ← Conn.decode (b :: bs).length (r.conn.receive k (b :: bs))
      pure (.ok (b :: bs).length, c)) := by
    unfold Conn.read Conn.readTcp
    rw [if_neg (by omega), hread]
  rw [EventLoop.read, hdecode]
  cases Conn.decode (b :: bs).length (r.conn.receive k (b :: bs)) <;> rfl

/-- Bytes crash `run` if they break `decode`, or if they bring the response that ends `run`. -/
theorem fatal_onReadable_bytes {r : EventLoop} {b : UInt8} {bs : List UInt8}
    (hread : io.read = .ok (b :: bs)) (hroom : r.conn.config.outputBufferSize.toNat ≤ isizeMax) :
    Fatal (onReadable json client k io r) ↔ ReadTrips json client k io r := by
  have herror := Conn.decode_error_iff (b :: bs).length (r.conn.receive k (b :: bs))
  have hok := Conn.decode_ok_iff (b :: bs).length (r.conn.receive k (b :: bs))
  rw [onReadable_eq, read_bytes hread hroom]
  cases hdecode : Conn.decode (b :: bs).length (r.conn.receive k (b :: bs)) with
  | error e =>
    obtain ⟨rest, hboundary, hspoiled⟩ := herror.mp ⟨e, hdecode⟩
    simp only [Except.error_bind, fatal_panicked, true_iff]
    exact .spoiled hread (List.cons_ne_nil b bs) hboundary hspoiled
  | ok c =>
    obtain ⟨fs, rest, hdrains, hc⟩ := (hok c).mp hdecode
    have hstate : c.state = r.conn.state := by
      rw [hc, Conn.emitAll_eq]
      rfl
    have hresponses : c.responses = r.conn.responses ++ fs.filterMap Conn.reply? := by
      rw [hc, Conn.emitAll_eq]
      rfl
    rw [Except.ok_bind, fatal_afterRead]
    simp only [hstate, hresponses]
    constructor
    · rintro ⟨hawaits, hrefuses⟩
      exact .refuses hread (List.cons_ne_nil b bs) hdrains hawaits hrefuses
    · intro htrips
      cases htrips with
      | room hhuge => omega
      | socket hsocket =>
        rw [hread] at hsocket
        cases hsocket
      | unheard hwould _ =>
        rw [hread] at hwould
        cases hwould
      | spoiled hbytes _ hboundary hspoiled =>
        rw [hread] at hbytes
        cases hbytes
        obtain ⟨e, herr⟩ := herror.mpr ⟨_, hboundary, hspoiled⟩
        rw [hdecode] at herr
        cases herr
      | refuses hbytes _ hdrains' hawaits hrefuses =>
        rw [hread] at hbytes
        cases hbytes
        -- what is drained is known, so these are the responses that were looked at
        obtain ⟨rfl, -⟩ := hdrains.unique hdrains'
        exact ⟨hawaits, hrefuses⟩

/-- Without bytes it is the socket that ends `run`, or a closed channel. -/
theorem readTrips_of_silent {r : EventLoop} (hsilent : ∀ bs, io.read = .ok bs → bs = [])
    (hroom : r.conn.config.outputBufferSize.toNat ≤ isizeMax) : ReadTrips json client k io r ↔
      io.read = .error .other ∨ io.read = .error .wouldBlock ∧ io.infoOpen = false := by
  constructor
  · intro htrips
    cases htrips with
    | room hhuge => omega
    | socket hsocket => exact .inl hsocket
    | unheard hwould hclosed => exact .inr ⟨hwould, hclosed⟩
    | spoiled hread hbs _ _ => exact absurd (hsilent _ hread) hbs
    | refuses hread hbs _ _ _ => exact absurd (hsilent _ hread) hbs
  · rintro (hsocket | ⟨hwould, hclosed⟩)
    · exact .socket hsocket
    · exact .unheard hwould hclosed

/-- A readable connection crashes for these reasons, and for no others. -/
theorem fatal_onReadable (r : EventLoop) : Fatal (onReadable json client k io r) ↔
    ReadTrips json client k io r := by
  rcases Nat.lt_or_ge isizeMax r.conn.config.outputBufferSize.toNat with hhuge | hroom
  · have hfull : EventLoop.read k io r = .error (.halt (.panicked .capacityOverflow) r) := by
      simp [EventLoop.read, Conn.read, Conn.readTcp, hhuge]
    rw [onReadable_eq, hfull]
    simp [Fatal, ReadTrips.room hhuge]
  · cases hread : io.read with
    | error e =>
      rw [readTrips_of_silent (by simp [hread]) hroom, onReadable_eq, EventLoop.read, Conn.read,
        Conn.readTcp.eq_def, if_neg (by omega)]
      simp only [hread]
      cases e with
      | wouldBlock => cases hopen : io.infoOpen <;> simp [Fatal]
      | other => simp [Fatal]
    | ok bs =>
      cases bs with
      | nil =>
        rw [readTrips_of_silent (by simp [hread]) hroom, onReadable_eq, EventLoop.read, Conn.read,
          Conn.readTcp.eq_def, if_neg (by omega)]
        simp [hread, Fatal]
      | cons b bs => exact fatal_onReadable_bytes hread hroom

/-! ## A writable connection -/

/-- The commands of the channel crash `run` if one of them is bulky. -/
theorem fatal_writeMessages (ws : ℕ → WriteResult) {r : EventLoop}
    (hsendable : ∀ cmd ∈ r.conn.r, cmd.Sendable) :
    Fatal (r.call (r.conn.writeMessages k ws)) ↔ ∃ cmd ∈ r.conn.r, cmd.Bulky := by
  rw [fatal_call]
  exact Conn.writeEach_error_iff k ws _ hsendable

/-- Before the handshake is over nothing that is written crashes `run`. -/
theorem not_fatal_onHandshake {r : EventLoop} (hstarted : r.conn.state ≠ .started) :
    ¬ Fatal (onHandshake json client k io r) := by
  unfold onHandshake
  rcases command_cases json client k hstarted with ⟨h, cmd, st, need, buf, -, -, hok⟩ | ⟨st, -, hok⟩
  · rw [hok]
    exact not_fatal_pure _
  · rw [hok]
    exact not_fatal_pure _

/-- A connection that is not readable crashes at a bulky command, once the handshake is over. -/
theorem fatal_onWritable {r : EventLoop} (hsendable : ∀ cmd ∈ r.conn.r, cmd.Sendable) :
    Fatal (onWritable json client k io r) ↔
      r.conn.state = .started ∧ ∃ cmd ∈ r.conn.r, cmd.Bulky := by
  unfold onWritable
  by_cases hstarted : r.conn.state = .started
  · rw [if_neg (by simp [hstarted])]
    obtain ⟨r₁, hbeat, hok⟩ := beat_cases k io r
    have hr : r₁.conn.r = r.conn.r := by rw [hbeat.same]
    rw [← hr] at hsendable ⊢
    unfold onStarted
    rw [hok, Except.ok_bind, fatal_bind_pure, fatal_writeMessages _ hsendable]
    simp [hstarted]
  · rw [if_pos hstarted]
    simp [hstarted, not_fatal_onHandshake hstarted]

/-! ## Steps -/

/-- Why an event ends `run`. -/
inductive EventTrips (json : Json) (client : Client) (k : Stream) (io : Io) (r : EventLoop) :
    Event → Prop where
  | readable : ReadTrips json client k io r →
      EventTrips json client k io r ⟨.connection, .readable⟩
  | writable {cmd : Cmd} : r.conn.state = .started → cmd ∈ r.conn.r → cmd.Bulky →
      EventTrips json client k io r ⟨.connection, .writable⟩
  | messages {ready : Ready} {cmd : Cmd} : cmd ∈ r.conn.r → cmd.Bulky →
      EventTrips json client k io r ⟨.client, ready⟩

/-- The steps at which `run` crashes: `poll` fails, there is no TLS connector, or an event ends
it. -/
inductive Trips (json : Json) (client : Client) (r : EventLoop) : Label → Prop where
  | pollFailed : Trips json client r .pollFailed
  | noConnector : Trips json client r (.tls .noConnector)
  | event {k : Stream} {io : Io} {e : Event} {evts : List Event} :
      r.phase = phaseOf k (e :: evts) → EventTrips json client k io r e →
      Trips json client r (.event io)

/-- An event crashes `run` for these reasons, and for no others. -/
theorem fatal_onEvent {r : EventLoop} (e : Event) (hsendable : ∀ cmd ∈ r.conn.r, cmd.Sendable) :
    Fatal (onEvent json client k io e r) ↔ EventTrips json client k io r e := by
  obtain ⟨token, ready⟩ := e
  cases token with
  | cmd =>
    have hclose : ¬ Fatal (onClose k r) := by
      unfold onClose
      split_ifs <;> simp [Fatal]
    simp only [onEvent, hclose, false_iff]
    intro htrips
    cases htrips
  | client =>
    simp only [onEvent, fatal_writeMessages io.writes hsendable]
    constructor
    · rintro ⟨cmd, hcmd, hbulky⟩
      exact .messages hcmd hbulky
    · intro htrips
      cases htrips with
      | messages hcmd hbulky => exact ⟨_, hcmd, hbulky⟩
  | connection =>
    cases ready with
    | readable =>
      simp only [onEvent, fatal_onReadable]
      constructor
      · exact .readable
      · intro htrips
        cases htrips with
        | readable h => exact h
    | writable =>
      simp only [onEvent, fatal_onWritable hsendable]
      constructor
      · rintro ⟨hstarted, cmd, hcmd, hbulky⟩
        exact .writable hstarted hcmd hbulky
      · intro htrips
        cases htrips with
        | writable hstarted hcmd hbulky => exact ⟨hstarted, _, hcmd, hbulky⟩

/-- The handshake of TLS crashes `run` if there is no connector. -/
theorem crashed_onTls_iff (answer : TlsAnswer) (r : EventLoop) :
    Crashed (onTls answer r) ↔ answer = .noConnector := by
  cases answer <;> simp [onTls, Crashed]

/-- A step crashes exactly if it is on the list. -/
theorem crashes_iff {r r' : EventLoop} {l : Label} (hsendable : ∀ cmd ∈ r.conn.r, cmd.Sendable)
    (halive : ¬ Crashed r) (hstep : step json client r l = some r') :
    Crashed r' ↔ Trips json client r l := by
  cases l with
  | event io =>
    obtain ⟨k, e, evts, hphase, rfl⟩ := exists_event_of_step hstep
    rw [crashed_after_iff, fatal_onEvent e hsendable]
    constructor
    · exact .event hphase
    · intro htrips
      cases htrips with
      | @event k' _ e' evts' hphase' htrips =>
        obtain ⟨rfl, rfl⟩ : k' = k ∧ e' = e := by
          rw [hphase] at hphase'
          cases k <;> cases k' <;> simp_all [phaseOf]
        exact htrips
  | tls answer =>
    cases step_outcome hstep
    rw [crashed_onTls_iff]
    constructor
    · rintro rfl
      exact .noConnector
    · intro htrips
      cases htrips
      rfl
  | pollFailed =>
    cases step_outcome hstep
    exact ⟨fun _ => .pollFailed, fun _ => .inl ⟨.poll, rfl⟩⟩
  | poll evts now =>
    have hbatch : ¬ Crashed r' := by
      cases step_outcome hstep with
      | pollPlain => exact not_crashed_of_plain rfl
      | pollTls => exact not_crashed_of_phase (k := .tls) rfl
    exact ⟨fun hcrashed => absurd hcrashed hbatch, fun htrips => by cases htrips⟩
  | send cmd =>
    cases hstep
    exact ⟨fun hcrashed => absurd hcrashed halive, fun htrips => by cases htrips⟩
  | close =>
    cases hstep
    exact ⟨fun hcrashed => absurd hcrashed halive, fun htrips => by cases htrips⟩

/-! ## Runs -/

/-- The commands sent are such commands. -/
def Sending (P : Cmd → Prop) (_ : EventLoop) (l : Label) : Prop := ∀ cmd, l = .send cmd → P cmd

instance (P : Cmd → Prop) [DecidablePred P] (r : EventLoop) :
    (l : Label) → Decidable (Sending P r l)
  | .send cmd => decidable_of_iff (P cmd) ⟨fun h _ heq => by cases heq; exact h, fun h => h cmd rfl⟩
  | .close => .isTrue (by simp [Sending])
  | .poll _ _ => .isTrue (by simp [Sending])
  | .pollFailed => .isTrue (by simp [Sending])
  | .tls _ => .isTrue (by simp [Sending])
  | .event _ => .isTrue (by simp [Sending])

/-- So those in the command channel are. -/
theorem commands_run {P : Cmd → Prop} {cmds : List Cmd} {alloc : Alloc} {clock : ℕ}
    {ls : List Label} {r : EventLoop} (hcmds : ∀ cmd ∈ cmds, P cmd)
    (hrun : Machine.Run (step json client) (Sending P) (start client cmds alloc clock) ls r)
    (halive : ¬ Crashed r) : ∀ cmd ∈ r.conn.r, P cmd := by
  have hsends : ∀ cmd ∈ sends ls, P cmd := by
    induction hrun with
    | nil => simp [sends]
    | @snoc ls t u l _ hsending hstep ih =>
      intro cmd hcmd
      rw [sends, List.filterMap_append] at hcmd
      rcases List.mem_append.mp hcmd with hold | hnew
      · exact ih (fun hc => halive (crashed_of_step hc hstep)) cmd hold
      · refine hsending cmd ?_
        cases l <;> simp at hnew
        rw [hnew]
  have hsent := (delivered_run (hrun.mono fun _ _ _ => trivial) halive).sent
  intro cmd hcmd
  have hmem : cmd ∈ cmds ++ sends ls := by
    rw [← hsent]
    exact List.mem_append_right _ hcmd
  rcases List.mem_append.mp hmem with hfirst | hlater
  · exact hcmds cmd hfirst
  · exact hsends cmd hlater

/-! ## A courteous environment -/

/-- What a server that keeps to the protocol brings in a read: whole frames, with messages that are
long enough; and where a response is due, one with which the handshake goes on comes last. -/
def Civil (json : Json) (client : Client) (k : Stream) (r : EventLoop) (bs : List UInt8) : Prop :=
  ∃ fs, bs = wire fs ∧
    (∀ f ∈ fs, f.Honest ∧ f.Readable ∧ (f.isMessage = true → 26 ≤ f.payload.length)) ∧
    (awaits client k r.conn.state = true →
      ¬ Refuses json client r.conn.state r.nsqdConfig (fs.filterMap Conn.reply?).getLast?)

/-- An environment with which nothing goes wrong: `poll` and the TLS library do their work, the
commands are of less than 2 GiB, and a read brings nothing while the application listens for that,
or what a server brings that keeps to the protocol. -/
def Courteous (json : Json) (client : Client) (r : EventLoop) : Label → Prop
  | .send cmd => cmd.Sendable ∧ ¬ cmd.Bulky
  | .close => True
  | .poll _ _ => True
  | .pollFailed => False
  | .tls answer => answer ≠ .noConnector
  | .event io => r.nextEvent = some ⟨.connection, .readable⟩ →
      io.read ≠ .error .other ∧ (io.read = .error .wouldBlock → io.infoOpen = true) ∧
        ∀ k evts bs, r.phase = phaseOf k evts → io.read = .ok bs → bs ≠ [] →
          Civil json client k r bs

/-- Between two reads nothing is left in the buffer, and what was forwarded can be handled. -/
structure Tidy (c : Conn) : Prop where
  rBuf : c.rBuf = []
  sent : ∀ m ∈ c.s, m.bytes = [] ∨ m.Valid

/-- What does not concern the buffer and the message channel. -/
theorem Tidy.keep {c c' : Conn} (h : Tidy c) (hbuf : c'.rBuf = c.rBuf) (hs : c'.s = c.s) :
    Tidy c' :=
  ⟨hbuf.trans h.rBuf, by rw [hs]; exact h.sent⟩

/-- An empty message. -/
theorem Tidy.closing {c c' : Conn} (h : Tidy c) (hbuf : c'.rBuf = c.rBuf)
    (hs : c'.s = c.s ++ [⟨0, [], .inline⟩]) : Tidy c' := by
  refine ⟨hbuf.trans h.rBuf, fun m hm => ?_⟩
  rw [hs] at hm
  rcases List.mem_append.mp hm with hold | hnew
  · exact h.sent m hold
  · rw [List.mem_singleton.mp hnew]
    exact .inl rfl

/-- A read of whole frames, with messages that are long enough. -/
theorem Tidy.fed {bs : List UInt8} {fs gs : List Frame} {c c' : Conn} (h : Tidy c)
    (hfed : Conn.Fed k bs fs c c') (hbs : bs = wire gs)
    (hgs : ∀ g ∈ gs, g.Honest ∧ g.Readable ∧ (g.isMessage = true → 26 ≤ g.payload.length)) :
    Tidy c' := by
  obtain ⟨rfl, hbuf⟩ := hfed.whole h.rBuf hbs (.of_honest fun g hg => (hgs g hg).1)
  refine ⟨hbuf, fun m hm => ?_⟩
  have hconn := hfed.conn
  rw [Conn.emitAll_eq] at hconn
  rw [hconn] at hm
  rcases List.mem_append.mp hm with hold | hnew
  · exact h.sent m hold
  · obtain ⟨f, hf, rfl⟩ := List.mem_map.mp hnew
    obtain ⟨hf, hmessage⟩ := List.mem_filter.mp hf
    exact .inr ((hgs f hf).2.2 hmessage)

/-- A readable connection that does not crash. -/
theorem tidy_readable {r : EventLoop} {x : Except Leave EventLoop} {evts : List Event}
    (h : Tidy r.conn) (hx : ReadOutcome json client k io r x)
    (hcivil : ∀ bs, io.read = .ok bs → bs ≠ [] → Civil json client k r bs)
    (halive : ¬ Crashed (after (phaseOf k) evts x)) :
    Tidy (after (phaseOf k) evts x).conn := by
  have hbytes : ∀ {bs : List UInt8} {fs : List Frame} {c c' : Conn}, io.read = .ok bs →
      Conn.Fed k bs fs r.conn c → c'.rBuf = c.rBuf → c'.s = c.s → Tidy c' := by
    intro bs fs c c' hread hfed hbuf hs
    obtain ⟨gs, hbs, hgs, -⟩ := hcivil bs hread hfed.ne_nil
    exact (h.fed hfed hbs hgs).keep hbuf hs
  cases hx with
  | panicked _ _ _ => exact absurd (.inl ⟨_, rfl⟩) halive
  | refused _ _ _ hhalt _ => exact absurd (crashed_of_refused hhalt) halive
  | noResponse _ _ _ _ => exact absurd (.inl ⟨_, rfl⟩) halive
  | eof _ => exact h.keep rfl rfl
  | wouldBlock _ => exact h.keep rfl rfl
  | started hread hfed _ => exact hbytes hread hfed rfl rfl
  | unasked hread hfed _ _ _ => exact hbytes hread hfed rfl rfl
  | producer hread hfed _ _ _ => exact hbytes hread hfed rfl rfl
  | tlsSwitch hread hfed _ _ _ _ _ => exact hbytes hread hfed rfl rfl
  | answered hread hfed _ _ => exact hbytes hread hfed rfl rfl

/-- An event that does not crash. -/
theorem tidy_event {r : EventLoop} {e : Event} {x : Except Leave EventLoop} {evts : List Event}
    (h : Tidy r.conn) (hx : EventOutcome json client k io r e x)
    (hcivil : e = ⟨.connection, .readable⟩ → ∀ bs, io.read = .ok bs → bs ≠ [] →
      Civil json client k r bs)
    (halive : ¬ Crashed (after (phaseOf k) evts x)) :
    Tidy (after (phaseOf k) evts x).conn := by
  cases hx with
  | close _ => exact h.closing rfl rfl
  | noClose _ => exact h.keep rfl rfl
  | messages hflushed =>
    refine h.keep ?_ ?_
    · simp only [after]
      rw [hflushed.conn]
    · simp only [after]
      rw [hflushed.conn]
  | messagesPanic _ _ _ _ => exact absurd (.inl ⟨_, rfl⟩) halive
  | readable hread => exact tidy_readable h hread (hcivil rfl) halive
  | writable hwrite =>
    exact h.keep (rBuf_of_write hwrite _ _) (sent_of_write hwrite _ _)

/-- Courteous steps that do not crash keep the connection tidy. -/
theorem tidy_step {r r' : EventLoop} {l : Label} (h : Tidy r.conn)
    (hcourteous : Courteous json client r l) (hstep : step json client r l = some r')
    (halive : ¬ Crashed r') : Tidy r'.conn := by
  cases step_outcome hstep with
  | send => exact h.keep rfl rfl
  | close => exact h.keep rfl rfl
  | pollPlain _ _ hs =>
    rcases hs with rfl | ⟨-, rfl⟩
    · exact h.keep rfl rfl
    · exact h.closing rfl rfl
  | pollTls _ => exact h.keep rfl rfl
  | pollFailed => exact h.keep rfl rfl
  | @tls answer _ => cases answer <;> exact h.keep rfl rfl
  | @event k e evts io x hphase hx =>
    refine tidy_event h hx ?_ halive
    rintro rfl bs hread hbs
    exact (hcourteous (nextEvent_of_phase hphase)).2.2 k _ bs hphase hread hbs

/-- What a server brings that keeps to the protocol is drained. -/
theorem drains_of_wire {st : Storage} {buf bs : List UInt8} {fs : List Frame} (hbuf : buf = [])
    (hbs : bs = wire fs) (hfs : ∀ f ∈ fs, f.Honest ∧ f.Readable) :
    Conn.Drains st bs.length (buf ++ bs) fs [] where
  bytes := by rw [hbuf, hbs, List.nil_append, List.append_nil]
  parsed := .of_honest fun f hf => (hfs f hf).1
  taken := by
    intro f hf
    obtain ⟨hhonest, hread⟩ := hfs f hf
    have hle := length_wire_le_of_mem hf
    rw [f.length_wire, ← hbs] at hle
    refine ⟨hread, Frame.within_iff.mpr ?_⟩
    rw [Frame.Honest] at hhonest
    omega
  stops := by
    rw [Conn.attempts_iff]
    simp

/-- A step of a courteous environment is not on the list. -/
theorem not_trips {r : EventLoop} {l : Label} (h : Tidy r.conn)
    (hroom : r.conn.config.outputBufferSize.toNat ≤ isizeMax)
    (hlean : ∀ cmd ∈ r.conn.r, ¬ cmd.Bulky) (hcourteous : Courteous json client r l) :
    ¬ Trips json client r l := by
  intro htrips
  cases htrips with
  | pollFailed => exact hcourteous
  | noConnector => exact hcourteous rfl
  | @event k io e evts hphase htrips =>
    cases htrips with
    | writable _ hcmd hbulky => exact hlean _ hcmd hbulky
    | messages hcmd hbulky => exact hlean _ hcmd hbulky
    | readable hread =>
      obtain ⟨hsocket, hheard, hcivil⟩ := hcourteous (nextEvent_of_phase hphase)
      cases hread with
      | room hhuge => omega
      | socket hbroken => exact hsocket hbroken
      | unheard hwould hclosed =>
        rw [hheard hwould] at hclosed
        cases hclosed
      | @spoiled bs rest hbytes hbs hboundary hspoiled =>
        obtain ⟨fs, hwire, hfs, -⟩ := hcivil k _ _ hphase hbytes hbs
        have hdrains : Conn.Drains (r.conn.storage 1) bs.length (r.conn.rBuf ++ bs) fs [] :=
          drains_of_wire h.rBuf hwire fun f hf => ⟨(hfs f hf).1, (hfs f hf).2.1⟩
        obtain ⟨e, herror⟩ := (Conn.decode_error_iff bs.length (r.conn.receive k bs)).mpr
          ⟨rest, hboundary, hspoiled⟩
        rw [(Conn.decode_ok_iff bs.length (r.conn.receive k bs) _).mpr ⟨fs, [], hdrains, rfl⟩]
          at herror
        cases herror
      | refuses hbytes hbs hdrains hawaits hrefuses =>
        obtain ⟨fs, hwire, hfs, hgoes⟩ := hcivil k _ _ hphase hbytes hbs
        obtain ⟨rfl, -⟩ := hdrains.unique (drains_of_wire h.rBuf hwire
          fun f hf => ⟨(hfs f hf).1, (hfs f hf).2.1⟩)
        refine hgoes hawaits ?_
        -- the newest response came with this read, if one did
        cases hlast : (List.filterMap Conn.reply? _).getLast? with
        | none => trivial
        | some resp =>
          rw [List.getLast?_append, hlast] at hrefuses
          exact hrefuses

end EventLoop

end NsqClient
