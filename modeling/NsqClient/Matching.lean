import NsqClient.Steps

set_option relaxedAutoImplicit false
set_option autoImplicit false

/-!
# Matching of responses

The decoder pushes every response and every error frame; the event loop pops one response for a
read in which one is due, and it pops the newest.  So every reply is taken, in the order of
arrival, exactly if no read brings a second one, and none brings one that is not due.

## Main definitions

* `NsqClient.Unpacked` — the frames that `decode` takes off a sequence of reads.
* `NsqClient.Conn.Matched` — the responses popped are the replies received, in order.
* `NsqClient.Conn.RepliesAtMost` — a bound on the replies a read gets to.
* `NsqClient.EventLoop.Paired` — a read brings a reply only where one is due, and only one.

## Main results

* `NsqClient.EventLoop.matched_event_iff` — an event keeps the responses matched exactly if it is
  paired.
* `NsqClient.EventLoop.responses_matched` — in a run of paired steps they are matched throughout.
-/

namespace NsqClient

/-! ## Replies and responses -/

/-- The bytes an entry of the log brings, from whatever stream. -/
def Obs.arrived : Obs → Option (List UInt8)
  | read _ bs => some bs
  | _ => none

/-- The response an entry takes by `get_response`. -/
def Obs.popped : Obs → Option Response
  | response resp => some resp
  | _ => none

/-- The reads that brought bytes, in order. -/
def reads (log : List Obs) : List (List UInt8) := log.filterMap Obs.arrived

/-- All the bytes received, in order. -/
def arrived (log : List Obs) : List UInt8 := (reads log).flatten

/-- All the responses taken, in order. -/
def popped (log : List Obs) : List Response := log.filterMap Obs.popped

theorem reads_append (log log' : List Obs) : reads (log ++ log') = reads log ++ reads log' :=
  List.filterMap_append

theorem popped_append (log log' : List Obs) : popped (log ++ log') = popped log ++ popped log' :=
  List.filterMap_append

/-- Inert entries bring and take nothing. -/
theorem reads_popped_of_inert {log log' : List Obs} (h : Since Inert log log') :
    reads log' = reads log ∧ popped log' = popped log := by
  obtain ⟨tail, rfl, htail⟩ := h
  have hnone : ∀ o ∈ tail, o.arrived = none ∧ o.popped = none := by
    intro o ho
    obtain ⟨hread, hresp⟩ := htail o ho
    cases o with
    | read k bs => exact absurd rfl (hread k bs)
    | response resp => exact absurd rfl (hresp resp)
    | _ => exact ⟨rfl, rfl⟩
  rw [reads_append, popped_append]
  refine ⟨?_, ?_⟩
  · rw [List.append_right_eq_self, reads, List.filterMap_eq_nil_iff]
    exact fun o ho => (hnone o ho).1
  · rw [List.append_right_eq_self, popped, List.filterMap_eq_nil_iff]
    exact fun o ho => (hnone o ho).2

/-- Off these reads, one after the other, `decode` takes the frames, and the rest is left: what a
read finds left and what it brings are frames and the rest, and only at the end of a read may a
frame be without its last bytes. -/
inductive Unpacked : List (List UInt8) → List Frame → List UInt8 → Prop where
  | start : Unpacked [] [] []
  | read {reads : List (List UInt8)} {fs gs : List Frame} {bs rest rest' : List UInt8}
      {st : Storage} :
      Unpacked reads fs rest → rest ++ bs = wire gs ++ rest' → Parsed st gs rest' →
      Unpacked (reads ++ [bs]) (fs ++ gs) rest'

/-- The frames and the rest are the bytes read. -/
theorem Unpacked.bytes {reads : List (List UInt8)} {fs : List Frame} {rest : List UInt8}
    (h : Unpacked reads fs rest) : reads.flatten = wire fs ++ rest := by
  induction h with
  | start => rfl
  | read _ hbytes _ ih =>
    rw [List.flatten_append, List.flatten_singleton, ih, List.append_assoc, hbytes, wire_append,
      List.append_assoc]

/-- Each of the frames is whole or without its last bytes. -/
theorem Unpacked.honest_or_cut {reads : List (List UInt8)} {fs : List Frame} {rest : List UInt8}
    (h : Unpacked reads fs rest) : ∀ f ∈ fs, f.Honest ∨ f.Cut := by
  induction h with
  | start => simp
  | read _ _ hparsed ih => exact List.forall_mem_append.mpr ⟨ih, hparsed.honest_or_cut⟩

namespace Conn

/-- A read of the bytes `bs` gets to at most `n` replies, as `decode` takes them. -/
def RepliesAtMost (n : ℕ) (c : Conn) (bs : List UInt8) : Prop :=
  ∀ gs rest, c.rBuf ++ bs = wire gs ++ rest → Parsed (c.storage 1) gs rest →
    (∀ g ∈ gs, g.Within bs.length) → (gs.filterMap reply?).length ≤ n

/-- A read of one frame gets to no second one. -/
theorem repliesAtMost_of_frame {c : Conn} {f : Frame} (hbuf : c.rBuf = []) (hf : f.Honest) :
    RepliesAtMost 1 c f.wire := by
  intro gs rest hbytes hgs _
  rw [hbuf, List.nil_append] at hbytes
  refine (List.length_filterMap_le reply? gs).trans ?_
  cases gs with
  | nil => exact Nat.zero_le 1
  | cons g gs =>
    rw [wire_cons, List.append_assoc, ← List.append_nil f.wire] at hbytes
    have hfirst : f.SplitsOff .inline [] := .inl hf
    obtain ⟨-, hrest⟩ := hfirst.inj hgs.1 hbytes
    cases gs with
    | nil => exact Nat.le_refl 1
    | cons g' gs =>
      rw [wire_cons, List.append_assoc] at hrest
      exact absurd (List.append_eq_nil_iff.mp hrest.symm).1 g'.wire_ne_nil

/-- The responses taken are the replies among the frames received, in order and each once, and none
is left. -/
structure Matched (c : Conn) : Prop where
  replies : ∃ fs, Unpacked (reads c.log) fs c.rBuf ∧
    NsqClient.popped c.log = fs.filterMap reply?
  responses : c.responses = []

/-- What neither reads nor takes a response. -/
theorem Matched.inert {c c' : Conn} (h : c.Matched) (hlog : Since Inert c.log c'.log)
    (hbuf : c'.rBuf = c.rBuf) (hresponses : c'.responses = c.responses) : c'.Matched := by
  obtain ⟨fs, hunpacked, hpopped⟩ := h.replies
  obtain ⟨hreads, hpop⟩ := reads_popped_of_inert hlog
  refine ⟨⟨fs, ?_, ?_⟩, hresponses.trans h.responses⟩
  · rw [hreads, hbuf]
    exact hunpacked
  · rw [hpop, hpopped]

/-- A read, after which the replies it brought are taken. -/
theorem Matched.fed {k : Stream} {bs : List UInt8} {fs : List Frame} {c c' c'' : Conn}
    (h : c.Matched) (hfed : Fed k bs fs c c') {tail : List Obs} (hbuf : c''.rBuf = c'.rBuf)
    (hlog : c''.log = c.log ++ .read k bs :: tail) (htail : reads tail = [])
    (hpop : popped tail = fs.filterMap reply?) (hresponses : c''.responses = []) :
    c''.Matched := by
  obtain ⟨gs, hunpacked, hpopped⟩ := h.replies
  refine ⟨⟨gs ++ fs, ?_, ?_⟩, hresponses⟩
  · have hcons : reads (.read k bs :: tail) = [bs] := by
      rw [← htail]
      rfl
    rw [hlog, reads_append, hcons, hbuf]
    exact hunpacked.read hfed.bytes hfed.parsed
  · have hcons : NsqClient.popped (.read k bs :: tail) = NsqClient.popped tail := rfl
    rw [hlog, popped_append, hpopped, hcons, hpop, List.filterMap_append]

/-- The replies a read gets to are those among the frames it took. -/
theorem Fed.repliesAtMost_iff {k : Stream} {bs : List UInt8} {fs : List Frame} {c c' : Conn}
    (h : Fed k bs fs c c') {n : ℕ} :
    RepliesAtMost n c bs ↔ (fs.filterMap reply?).length ≤ n := by
  constructor
  · intro hmost
    exact hmost fs c'.rBuf h.bytes h.parsed h.within
  · intro hle gs rest hbytes hgs hwithin
    obtain ⟨hs, rfl, -⟩ := h.taken hbytes hgs hwithin
    rw [List.filterMap_append, List.length_append] at hle
    omega

end Conn

namespace EventLoop

variable {json : Json} {client : Client} {k : Stream} {io : Io}

/-- A read that brings bytes gets to one reply at most where a response is due, and to none
elsewhere. -/
def PairedEvent (client : Client) (k : Stream) (io : Io) (e : Event) (r : EventLoop) : Prop :=
  e = ⟨.connection, .readable⟩ → ∀ bs, io.read = .ok bs →
    r.conn.RepliesAtMost (if awaits client k r.conn.state then 1 else 0) bs

/-- Only a readable connection is read. -/
theorem pairedEvent_of_ne {e : Event} {r : EventLoop} (h : e ≠ ⟨.connection, .readable⟩) :
    PairedEvent client k io e r :=
  fun he => absurd he h

/-- Where a response leads on, one is due. -/
theorem awaits_of_answered {st st' : State} {cfg cfg' : NsqdConfig} {resp : String}
    (h : Answered json client k st cfg resp cfg' st') : awaits client k st = true := by
  cases h with
  | identify _ _ _ => rfl
  | tls _ => rfl
  | auth => rfl
  | subscribe hsub => cases k <;> simp [awaits, hsub]

/-- A readable connection: the responses stay matched exactly if the read is paired. -/
theorem matched_read_iff {r : EventLoop} {x : Except Leave EventLoop} (h : r.conn.Matched)
    (hx : ReadOutcome json client k io r x) (next : List Event → Phase) (evts : List Event)
    (hrunning : ¬ Crashed (after next evts x)) :
    (after next evts x).conn.Matched ↔ PairedEvent client k io ⟨.connection, .readable⟩ r := by
  have hpaired : ∀ {bs : List UInt8} {fs : List Frame} {c : Conn}, io.read = .ok bs →
      Conn.Fed k bs fs r.conn c → (PairedEvent client k io ⟨.connection, .readable⟩ r ↔
        (fs.filterMap Conn.reply?).length ≤ if awaits client k r.conn.state then 1 else 0) := by
    intro bs fs c hread hfed
    rw [← hfed.repliesAtMost_iff]
    refine ⟨fun hp => hp rfl bs hread, fun hp _ bs' hbs' => ?_⟩
    rw [hread] at hbs'
    cases hbs'
    exact hp
  have hnothing : (∀ bs, io.read = .ok bs → bs = []) →
      PairedEvent client k io ⟨.connection, .readable⟩ r := by
    intro hnil _ bs hbs gs rest _ _ hgs
    rw [hnil bs hbs] at hgs
    cases gs with
    | nil => exact Nat.zero_le _
    | cons g gs =>
      have hwithin := hgs g List.mem_cons_self
      rw [Frame.within_iff] at hwithin
      exact absurd hwithin.1 (by decide)
  -- no response is due, and none is taken
  have hleft : ∀ {bs : List UInt8} {fs : List Frame} {c c' : Conn}, io.read = .ok bs →
      Conn.Fed k bs fs r.conn c → awaits client k r.conn.state = false → c'.rBuf = c.rBuf →
      c'.log = c.log → c'.responses = c.responses →
      (c'.Matched ↔ PairedEvent client k io ⟨.connection, .readable⟩ r) := by
    intro bs fs c c' hread hfed hawaits hbuf hlog hresponses
    have hpushed := hfed.responses
    rw [h.responses, List.nil_append] at hpushed
    rw [hpaired hread hfed, hawaits, if_neg (by decide), Nat.le_zero, List.length_eq_zero_iff]
    constructor
    · intro hmatched
      rw [← hpushed, ← hresponses, hmatched.responses]
    · intro hnil
      rw [hnil] at hpushed
      exact h.fed hfed hbuf (hlog.trans hfed.log) rfl hnil.symm (hresponses.trans hpushed)
  -- a response is due, and the newest is taken
  have htaken : ∀ {bs : List UInt8} {fs : List Frame} {c c' : Conn} {rs : List Response}
      {resp : Response} {tail : List Obs}, io.read = .ok bs → Conn.Fed k bs fs r.conn c →
      awaits client k r.conn.state = true → c.responses = rs ++ [resp] → c'.rBuf = c.rBuf →
      c'.log = c.log ++ tail → reads tail = [] → popped tail = [resp] → c'.responses = rs →
      (c'.Matched ↔ PairedEvent client k io ⟨.connection, .readable⟩ r) := by
    intro bs fs c c' rs resp tail hread hfed hawaits hrs hbuf hlog hreads hpopped hresponses
    have hpushed := hfed.responses
    rw [h.responses, List.nil_append, hrs] at hpushed
    rw [hpaired hread hfed, hawaits, if_pos rfl, ← hpushed, List.length_append,
      List.length_singleton]
    constructor
    · intro hmatched
      rw [← hresponses, hmatched.responses]
      exact Nat.le_refl 1
    · intro hle
      obtain rfl : rs = [] := List.length_eq_zero_iff.mp (by omega)
      refine h.fed hfed hbuf ?_ hreads (hpopped.trans hpushed) hresponses
      rw [hlog, hfed.log, List.append_assoc]
      rfl
  cases hx with
  | panicked _ _ _ => exact absurd (.inl ⟨_, rfl⟩) hrunning
  | refused _ _ _ hhalt _ => exact absurd (crashed_of_refused hhalt) hrunning
  | noResponse _ _ _ _ => exact absurd (.inl ⟨_, rfl⟩) hrunning
  | eof hread =>
    refine ⟨fun _ => hnothing fun bs hbs => ?_, fun _ => h⟩
    rw [hread] at hbs
    cases hbs
    rfl
  | wouldBlock hread =>
    refine ⟨fun _ => hnothing fun bs hbs => ?_,
      fun _ => h.inert (.snoc inert_disconnected) rfl rfl⟩
    rw [hread] at hbs
    cases hbs
  | started hread hfed hstarted =>
    exact hleft hread hfed (by simp [awaits, hstarted]) rfl rfl rfl
  | unasked hread hfed hawaits _ _ => exact hleft hread hfed hawaits rfl rfl rfl
  | producer hread hfed hk hsub hp =>
    exact hleft hread hfed (by simp [awaits, hk, hsub, hp]) rfl rfl rfl
  | tlsSwitch hread hfed hk hidentify hrs _ _ =>
    exact htaken hread hfed (by simp [awaits, hk, hidentify]) hrs rfl rfl rfl rfl rfl
  | answered hread hfed hrs hnext =>
    exact htaken hread hfed (awaits_of_answered hnext) hrs rfl rfl rfl rfl rfl

/-- An event that does not crash keeps the responses matched exactly if it is paired. -/
theorem matched_event_iff {r : EventLoop} {e : Event} {x : Except Leave EventLoop}
    (h : r.conn.Matched) (hx : EventOutcome json client k io r e x) (next : List Event → Phase)
    (evts : List Event) (hrunning : ¬ Crashed (after next evts x)) :
    (after next evts x).conn.Matched ↔ PairedEvent client k io e r := by
  cases hx with
  | close _ =>
    exact ⟨fun _ => pairedEvent_of_ne (by simp),
      fun _ => h.inert (.snoc (inert_shutdown k)) rfl rfl⟩
  | noClose _ => exact ⟨fun _ => pairedEvent_of_ne (by simp), fun _ => h⟩
  | messages hflushed =>
    have hsame := hflushed.conn
    have hlog := inert_of_flushed hflushed
    refine ⟨fun _ => pairedEvent_of_ne (by simp), fun _ => h.inert hlog ?_ ?_⟩
    · simp only [after]
      rw [hsame]
    · simp only [after]
      rw [hsame]
  | messagesPanic _ _ _ _ => exact absurd (.inl ⟨_, rfl⟩) hrunning
  | readable hread => exact matched_read_iff h hread next evts hrunning
  | writable hwrite =>
    have hlog := inert_of_write hwrite next evts
    refine ⟨fun _ => pairedEvent_of_ne (by simp), fun _ => ?_⟩
    cases hwrite with
    | command _ _ => exact h.inert hlog rfl rfl
    | mute _ => exact h.inert hlog rfl rfl
    | started _ hbeat hflushed =>
      have hsame := hbeat.same
      have hconn := hflushed.conn
      refine h.inert hlog ?_ ?_
      · simp only [after]
        rw [hconn]
        simp only
        rw [hsame]
      · simp only [after]
        rw [hconn]
        simp only
        rw [hsame]
    | startedPanic _ _ _ _ _ => exact absurd (.inl ⟨_, rfl⟩) hrunning

/-- The condition on a step. -/
def Paired (client : Client) (r : EventLoop) : Label → Prop
  | .event io => ∀ k e evts, r.phase = phaseOf k (e :: evts) → PairedEvent client k io e r
  | _ => True

/-- A step that does not crash keeps the responses matched exactly if it is paired. -/
theorem matched_step_iff {r r' : EventLoop} {l : Label} (h : r.conn.Matched)
    (hstep : step json client r l = some r') (hrunning : ¬ Crashed r') :
    r'.conn.Matched ↔ Paired client r l := by
  have hsame : r'.conn.log = r.conn.log → r'.conn.rBuf = r.conn.rBuf →
      r'.conn.responses = r.conn.responses → r'.conn.Matched := by
    intro hlog hbuf hresponses
    refine h.inert ?_ hbuf hresponses
    rw [hlog]
    exact .refl _ _
  cases step_outcome hstep with
  | send => exact ⟨fun _ => trivial, fun _ => hsame rfl rfl rfl⟩
  | close => exact ⟨fun _ => trivial, fun _ => hsame rfl rfl rfl⟩
  | pollPlain _ _ => exact ⟨fun _ => trivial, fun _ => hsame rfl rfl rfl⟩
  | pollTls _ => exact ⟨fun _ => trivial, fun _ => hsame rfl rfl rfl⟩
  | pollFailed => exact ⟨fun _ => trivial, fun _ => hsame rfl rfl rfl⟩
  | @tls answer _ =>
    refine ⟨fun _ => trivial, fun _ => ?_⟩
    cases answer <;> exact hsame rfl rfl rfl
  | @event k e evts io x hphase hevent =>
    rw [matched_event_iff h hevent _ evts hrunning]
    constructor
    · intro hpaired k' e' evts' hphase'
      rw [hphase] at hphase'
      cases k <;> cases k' <;> cases hphase' <;> exact hpaired
    · intro hpaired
      exact hpaired k e evts hphase

/-- In every run whose reads each bring at most one reply where a response is due, and none
elsewhere: at every point between two steps, in the handshake and after it, every response pushed
so far was taken by one call of `get_response`, in the order of arrival, and none is left.  And a
further step keeps that only if its read, too, is such. -/
theorem responses_matched {cmds : List Cmd} {alloc : Alloc} {clock : ℕ} {ls : List Label}
    {r : EventLoop}
    (hrun : Machine.Run (step json client) (Paired client) (start client cmds alloc clock) ls r)
    (hrunning : ¬ Crashed r) :
    r.conn.Matched ∧ ∀ l r', step json client r l = some r' → ¬ Crashed r' →
      (r'.conn.Matched ↔ Paired client r l) := by
  have h : r.conn.Matched := by
    induction hrun with
    | nil => exact ⟨⟨[], .start, rfl⟩, rfl⟩
    | snoc _ hpaired hstep ih =>
      have hbefore := ih fun hc => hrunning (crashed_of_step hc hstep)
      exact (matched_step_iff hbefore hstep hrunning).mpr hpaired
  exact ⟨h, fun l r' hstep hrunning' => matched_step_iff h hstep hrunning'⟩

set_option maxRecDepth 4000 in
/-- `IDENTIFY` is written and its reply read: the reply is taken, and nothing is left. -/
theorem responses_matched_ok :
    ∃ r : EventLoop, r.conn.state = .subscribe ∧
      popped r.conn.log = [.response (granted false false)] ∧ r.conn.Matched := by
  have hwrite : ∀ {r : EventLoop} {io : Io}, r.phase = .plain [⟨.connection, .writable⟩] →
      Paired ⟨"t", "c", none, 1, .default none⟩ r (.event io) := by
    intro r io hphase k e evts hphase'
    rw [hphase] at hphase'
    cases k <;> cases hphase'
    exact pairedEvent_of_ne (by decide)
  have hread : ∀ {r : EventLoop}, r.conn.rBuf = [] → r.conn.state = .identify →
      r.phase = .plain [⟨.connection, .readable⟩] → Paired ⟨"t", "c", none, 1, .default none⟩ r
        (.event ⟨.ok (Frame.ofPayload 0 (Utf8.asBytes (granted false false))).wire, fun _ => .ok 0,
          true⟩) := by
    intro r hbuf hstate hphase k e evts hphase' _ bs hbs
    cases hbs
    rw [hphase] at hphase'
    cases k <;> cases hphase'
    rw [hstate]
    exact Conn.repliesAtMost_of_frame hbuf (by decide)
  have hrun : Machine.Run (step serde ⟨"t", "c", none, 1, .default none⟩)
      (Paired ⟨"t", "c", none, 1, .default none⟩)
      (start ⟨"t", "c", none, 1, .default none⟩ [] .exact 0)
      (writing ++ replying (granted false false)) _ :=
    .cons trivial rfl (.cons (hwrite rfl) rfl
      (.cons trivial rfl (.cons (hread rfl rfl rfl) rfl .nil)))
  have hmatched := (responses_matched hrun (not_crashed_of_phase (k := .plain) rfl)).1
  exact ⟨_, rfl, rfl, hmatched⟩

set_option maxRecDepth 4000 in
/-- One read brings an error frame and then the reply to `IDENTIFY`: the reply is taken for the
answer, the loop goes on to `Subscribe` and waits in `poll` with the error left. -/
theorem responses_unmatched :
    ∃ r : EventLoop, Machine.Run (step serde ⟨"t", "c", none, 1, .default none⟩)
        Machine.anything (start ⟨"t", "c", none, 1, .default none⟩ [] .exact 0)
        (writing ++ reading ((Frame.ofPayload 1 (Utf8.asBytes "E_INVALID")).wire ++
          (Frame.ofPayload 0 (Utf8.asBytes (granted false false))).wire)) r ∧
      r.phase = .plain [] ∧ r.conn.state = .subscribe ∧
      popped r.conn.log = [.response (granted false false)] ∧
      r.conn.responses = [.error "E_INVALID"] ∧ ¬ r.conn.Matched := by
  exact ⟨_, Machine.Run.of_exec rfl, rfl, rfl, rfl, rfl, fun h => absurd h.responses (by decide)⟩

end EventLoop

end NsqClient
