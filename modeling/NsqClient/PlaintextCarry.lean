import NsqClient.Past
import NsqClient.Steps

set_option relaxedAutoImplicit false
set_option autoImplicit false

/-!
# Plaintext after the switch to TLS

The two loops share one connection: its read buffer, its vector of responses and its heartbeat
flag.  All the plaintext up to the switch comes in one read.  So nothing of it is left at the
switch exactly if that read brings frames and nothing else, as `decode` takes them, one reply among
them and no heartbeat; and then everything decoded and every response taken in the TLS loop came
over the TLS stream.

## Main definitions

* `NsqClient.Exact`, `NsqClient.Conn.Fresh` — the condition on the plaintext, and a connection
  with nothing left of it.
* `NsqClient.EventLoop.Sealed` — everything a connection decoded, took and sent since the switch
  came over TLS.

## Main results

* `NsqClient.EventLoop.fresh_iff_exact` — nothing is left at the switch if and only if the
  plaintext is exact.
* `NsqClient.EventLoop.no_plaintext_carried_iff` — what this means for every run over TLS.
-/

namespace NsqClient

/-! ## What came over TLS -/

/-- What is logged in `obs` came over TLS: nothing was read from the plain socket, what was read
from the TLS stream are the frames `fs`, as `decode` takes them, and then `rest`, and the responses
taken are replies among these frames. -/
structure OverTls (obs : List Obs) (fs : List Frame) (rest : List UInt8) : Prop where
  plain : bytesRead .plain obs = []
  tls : bytesRead .tls obs = wire fs ++ rest
  honest : ∀ f ∈ fs, f.Honest ∨ f.Cut
  popped : ∀ resp, .response resp ∈ obs → resp ∈ fs.filterMap Conn.reply?

namespace OverTls

variable {obs : List Obs} {fs : List Frame} {rest : List UInt8}

theorem nil : OverTls [] [] [] := ⟨rfl, rfl, nofun, nofun⟩

/-- More reads from the TLS stream. -/
theorem reads (h : OverTls obs fs rest) {tail : List Obs}
    (htail : ∀ o ∈ tail, ∃ bs, o = .read .tls bs) :
    OverTls (obs ++ tail) fs (rest ++ bytesRead .tls tail) where
  plain := by
    rw [bytesRead_append, h.plain, List.nil_append]
    refine bytesRead_eq_nil fun o ho bs => ?_
    obtain ⟨bs', rfl⟩ := htail o ho
    exact nofun
  tls := by rw [bytesRead_append, h.tls, List.append_assoc]
  honest := h.honest
  popped := by
    intro resp hresp
    rcases List.mem_append.mp hresp with hresp | hresp
    · exact h.popped resp hresp
    · obtain ⟨bs, ⟨⟩⟩ := htail _ hresp

/-- A read from the TLS stream, with the frames it completes. -/
theorem read (h : OverTls obs fs rest) {bs rest' : List UInt8} {gs : List Frame}
    (hbytes : rest ++ bs = wire gs ++ rest') (hgs : ∀ g ∈ gs, g.Honest ∨ g.Cut) :
    OverTls (obs ++ [.read .tls bs]) (fs ++ gs) rest' where
  plain := by
    rw [bytesRead_append, h.plain]
    rfl
  tls := by
    rw [bytesRead_append, h.tls, bytesRead_read, List.append_assoc, hbytes, wire_append,
      List.append_assoc]
  honest f hf := (List.mem_append.mp hf).elim (h.honest f) (hgs f)
  popped := by
    intro resp hresp
    rw [List.filterMap_append]
    rcases List.mem_append.mp hresp with hresp | hresp
    · exact List.mem_append_left _ (h.popped resp hresp)
    · cases List.mem_singleton.mp hresp

/-- A response that is one of the replies. -/
theorem pop (h : OverTls obs fs rest) {resp : Response} (hresp : resp ∈ fs.filterMap Conn.reply?) :
    OverTls (obs ++ [.response resp]) fs rest where
  plain := by
    rw [bytesRead_append, h.plain]
    rfl
  tls := by
    have hnone : bytesRead .tls [.response resp] = [] := rfl
    rw [bytesRead_append, h.tls, hnone, List.append_nil]
  honest := h.honest
  popped := by
    intro resp' hresp'
    rcases List.mem_append.mp hresp' with hresp' | hresp'
    · exact h.popped resp' hresp'
    · cases List.mem_singleton.mp hresp'
      exact hresp

/-- Entries that are neither. -/
theorem inert (h : OverTls obs fs rest) {tail : List Obs} (htail : ∀ o ∈ tail, Inert o) :
    OverTls (obs ++ tail) fs rest where
  plain := by
    rw [bytesRead_append, h.plain, List.nil_append]
    exact bytesRead_eq_nil fun o ho bs => (htail o ho).1 .plain bs
  tls := by
    rw [bytesRead_append, h.tls, bytesRead_eq_nil fun o ho bs => (htail o ho).1 .tls bs,
      List.append_nil]
  honest := h.honest
  popped := by
    intro resp hresp
    rcases List.mem_append.mp hresp with hresp | hresp
    · exact h.popped resp hresp
    · exact absurd rfl ((htail _ hresp).2 resp)

end OverTls

/-! ## Exact plaintext -/

/-- The bytes are frames and nothing else, exactly one of them a reply and none of them a heartbeat.
They are complete frames, but the last one may be without its last bytes if a buffer with this
storage has the capacity of them. -/
def Exact (st : Storage) (bs : List UInt8) : Prop :=
  ∃ fs, bs = wire fs ∧ Parsed st fs [] ∧ fs.countP Frame.isReply = 1 ∧
    ∀ f ∈ fs, f.isHeartbeat = false

/-- A frame is no longer than a list of frames it is in. -/
theorem length_wire_le_of_mem {f : Frame} {fs : List Frame} (h : f ∈ fs) :
    f.wire.length ≤ (wire fs).length := by
  obtain ⟨gs, hs, rfl⟩ := List.append_of_mem h
  rw [wire_append, wire_cons]
  simp only [List.length_append]
  omega

namespace Conn

/-- Nothing is left of what was read: no bytes, no responses and no heartbeat. -/
structure Fresh (c : Conn) : Prop where
  rBuf : c.rBuf = []
  responses : c.responses = []
  heartbeat : c.heartbeat = false

/-- As many responses are pushed as there are replies. -/
theorem length_filterMap_reply? {fs : List Frame} (h : ∀ f ∈ fs, f.Readable) :
    (fs.filterMap reply?).length = fs.countP Frame.isReply := by
  have hparts := congrArg List.length (map_parts_filterMap_reply? h)
  rwa [List.length_map, List.length_map, ← List.countP_eq_length_filter] at hparts

/-- A fresh connection that reads frames and nothing else takes them all. -/
theorem Fed.whole {k : Stream} {bs : List UInt8} {fs gs : List Frame} {c c' : Conn}
    (h : Fed k bs fs c c') (hbuf : c.rBuf = []) (hbs : bs = wire gs)
    (hgs : Parsed (c.storage 1) gs []) : fs = gs ∧ c'.rBuf = [] := by
  have hbytes : c.rBuf ++ bs = wire gs ++ [] := by rw [hbuf, hbs, List.nil_append, List.append_nil]
  have hcover : ∀ g ∈ gs, g.Within bs.length := by
    intro g hg
    have hle := length_wire_le_of_mem hg
    rw [g.length_wire, ← hbs] at hle
    have htaken := hgs.honest_or_cut g hg
    rw [Frame.Honest, Frame.Cut] at htaken
    refine Frame.within_iff.mpr ?_
    omega
  obtain ⟨hs, rfl, hrest⟩ := h.taken hbytes hgs hcover
  obtain ⟨hwire, hnil⟩ := List.append_eq_nil_iff.mp hrest.symm
  refine ⟨?_, hnil⟩
  cases hs with
  | nil => rw [List.append_nil]
  | cons f hs =>
    rw [wire_cons] at hwire
    exact absurd (List.append_eq_nil_iff.mp hwire).1 f.wire_ne_nil

/-- What is left after one read of a fresh connection, and one response taken: nothing, exactly if
the bytes are exact. -/
theorem Fed.fresh_iff_exact {k : Stream} {bs : List UInt8} {fs : List Frame} {c c' : Conn}
    {rs : List Response} {resp : Response} (h : Fed k bs fs c c') (hc : c.Fresh)
    (hresp : c'.responses = rs ++ [resp]) :
    (c'.rBuf = [] ∧ rs = [] ∧ c'.heartbeat = false) ↔ Exact (c.storage 1) bs := by
  have hbytes := h.bytes
  rw [hc.rBuf, List.nil_append] at hbytes
  have hcount : rs.length + 1 = fs.countP Frame.isReply := by
    have hpushed := h.responses
    rw [hc.responses, List.nil_append, hresp] at hpushed
    rw [← length_filterMap_reply? h.readable, ← hpushed, List.length_append,
      List.length_singleton]
  have hbeat : c'.heartbeat = false ↔ ∀ f ∈ fs, f.isHeartbeat = false := by
    rw [h.heartbeat, hc.heartbeat, Bool.false_or, List.any_eq_false]
    simp
  constructor
  · rintro ⟨hrest, rfl, hquiet⟩
    rw [hrest, List.append_nil] at hbytes
    refine ⟨fs, hbytes, ?_, hcount.symm, hbeat.mp hquiet⟩
    rw [← hrest]
    exact h.parsed
  · rintro ⟨gs, hwire, hparsed, hone, hquiet⟩
    obtain ⟨rfl, hrest⟩ := h.whole hc.rBuf hwire hparsed
    rw [hone] at hcount
    exact ⟨hrest, List.length_eq_zero_iff.mp (by omega), hbeat.mpr hquiet⟩

/-! ## What a connection holds -/

/-- What a connection has pending, and has sent since it was `c₀`, comes from the frames `fs`; the
empty message, which announces the end of the connection, is its own. -/
structure Held (c₀ : Conn) (fs : List Frame) (c : Conn) : Prop where
  responses : ∀ resp ∈ c.responses, resp ∈ fs.filterMap reply?
  heartbeat : c.heartbeat = true → ∃ f ∈ fs, f.isHeartbeat = true
  sent : ∃ sent, c.s = c₀.s ++ sent ∧
    ∀ m ∈ sent, m = ⟨0, [], .inline⟩ ∨ ∃ f ∈ fs, f.isMessage = true ∧ m.bytes = f.payload

/-- A fresh connection holds nothing. -/
theorem Fresh.held {c : Conn} (h : c.Fresh) : Held c [] c where
  responses := by
    rw [h.responses]
    exact nofun
  heartbeat := by
    rw [h.heartbeat]
    exact nofun
  sent := ⟨[], (List.append_nil _).symm, nofun⟩

/-- What holds nothing from anywhere is fresh. -/
theorem Held.fresh {c₀ c : Conn} (h : Held c₀ [] c) (hbuf : c.rBuf = []) : c.Fresh where
  rBuf := hbuf
  responses := List.eq_nil_iff_forall_not_mem.mpr fun resp hresp => nomatch h.responses resp hresp
  heartbeat := by
    cases hbeat : c.heartbeat with
    | false => rfl
    | true =>
      obtain ⟨f, hf, -⟩ := h.heartbeat hbeat
      cases hf

/-- After a read a connection holds what it held, and what the frames of the read brought. -/
theorem Held.fed {c₀ c c' : Conn} {fs gs : List Frame} {k : Stream} {bs : List UInt8}
    (h : Held c₀ fs c) (hfed : Fed k bs gs c c') : Held c₀ (fs ++ gs) c' where
  responses := by
    intro resp hresp
    rw [hfed.responses] at hresp
    rw [List.filterMap_append]
    exact (List.mem_append.mp hresp).elim
      (fun hresp => List.mem_append_left _ (h.responses resp hresp)) (List.mem_append_right _)
  heartbeat := by
    intro hbeat
    rw [hfed.heartbeat, Bool.or_eq_true, List.any_eq_true] at hbeat
    rcases hbeat with hbeat | ⟨g, hg, hbeat⟩
    · obtain ⟨f, hf, hbeat⟩ := h.heartbeat hbeat
      exact ⟨f, List.mem_append_left gs hf, hbeat⟩
    · exact ⟨g, List.mem_append_right fs hg, hbeat⟩
  sent := by
    obtain ⟨sent, hs, hsent⟩ := h.sent
    have hconn := hfed.conn
    rw [emitAll_eq] at hconn
    refine ⟨sent ++ (gs.filter Frame.isMessage).map fun g => g.msg c.msgTimeout (c.storage 1),
      ?_, ?_⟩
    · rw [hconn, ← List.append_assoc, ← hs]
      rfl
    · intro m hm
      rcases List.mem_append.mp hm with hm | hm
      · refine (hsent m hm).imp_right ?_
        rintro ⟨f, hf, hmsg⟩
        exact ⟨f, List.mem_append_left gs hf, hmsg⟩
      · obtain ⟨g, hg, rfl⟩ := List.mem_map.mp hm
        obtain ⟨hmem, hmsg⟩ := List.mem_filter.mp hg
        exact .inr ⟨g, List.mem_append_right fs hmem, hmsg, rfl⟩

/-- Between `c` and `c'` nothing was read and no response was taken. -/
structure Untouched (c c' : Conn) : Prop where
  log : Since Inert c.log c'.log
  rBuf : c'.rBuf = c.rBuf
  responses : c'.responses = c.responses
  heartbeat : c'.heartbeat = true → c.heartbeat = true
  sent : ∃ sent, c'.s = c.s ++ sent ∧ ∀ m ∈ sent, m = ⟨0, [], .inline⟩

theorem Untouched.refl (c : Conn) : Untouched c c :=
  ⟨.refl _ _, rfl, rfl, id, [], (List.append_nil _).symm, nofun⟩

/-- A run of `write_messages` reads nothing. -/
theorem Flushed.untouched {k : Stream} {cmds : List Cmd} {c c' : Conn} (h : Flushed k cmds c c') :
    Untouched c c' := by
  have hlog := inert_of_flushed h
  have hconn := h.conn
  refine ⟨hlog, ?_, ?_, ?_, [], ?_, nofun⟩
  · rw [hconn]
  · rw [hconn]
  · rw [hconn]
    exact id
  · rw [hconn, List.append_nil]

theorem Held.untouched {c₀ c c' : Conn} {fs : List Frame} (h : Held c₀ fs c)
    (hc : Untouched c c') : Held c₀ fs c' where
  responses := by
    rw [hc.responses]
    exact h.responses
  heartbeat hbeat := h.heartbeat (hc.heartbeat hbeat)
  sent := by
    obtain ⟨sent, hs, hsent⟩ := h.sent
    obtain ⟨sent', hs', hsent'⟩ := hc.sent
    refine ⟨sent ++ sent', by rw [hs', hs, List.append_assoc], ?_⟩
    intro m hm
    exact (List.mem_append.mp hm).elim (hsent m) fun hm => .inl (hsent' m hm)

end Conn

namespace EventLoop

variable {json : Json} {client : Client}

/-! ## Before the switch -/

/-- A response leads on from `Identify`. -/
theorem Answered.ne_identify {k : Stream} {st st' : State} {cfg cfg' : NsqdConfig} {resp : String}
    (h : Answered json client k st cfg resp cfg' st') : st' ≠ .identify := by
  have hchoice : ∀ {cfg}, ¬ AuthChoice client cfg .identify := by
    rintro cfg (⟨-, -, ⟨⟩⟩ | ⟨-, ⟨⟩⟩)
  rintro rfl
  cases h with
  | identify _ _ h => exact hchoice h
  | tls h => exact hchoice h

/-- Only `IDENTIFY` is sent into `Identify`. -/
theorem Sends.eq_identify {config : Config} {k : Stream} {st : State} {h : Handshake}
    {cmd : NsqCmd} {need : Bool} (hsends : Sends json client config k st h cmd .identify need) :
    st = .identify := by
  cases hsends
  rfl

theorem Mute.eq_identify {k : Stream} {st : State} (h : Mute client k st .identify) :
    st = .identify := by
  cases h
  rfl

/-- As long as the plain loop waits for the reply to `IDENTIFY`, it has read nothing. -/
def Unread (r : EventLoop) : Prop :=
  (∃ evts, r.phase = .plain evts) → r.tls = 0 → r.conn.state = .identify →
    bytesRead .plain r.conn.log = [] ∧ r.conn.Fresh

/-- What does not read leaves nothing read. -/
theorem Unread.keep {r r' : EventLoop} (h : Unread r) (hphase : ∃ evts, r.phase = .plain evts)
    (htls : r'.tls = r.tls) (hstate : r'.conn.state = .identify → r.conn.state = .identify)
    (hlog : Since (fun o => ∀ bs, o ≠ .read .plain bs) r.conn.log r'.conn.log)
    (hfresh : r.conn.Fresh → r'.conn.Fresh) : Unread r' := by
  intro _ hzero hidentify
  obtain ⟨hread, hr⟩ := h hphase (htls ▸ hzero) (hstate hidentify)
  exact ⟨(bytesRead_since hlog).trans hread, hfresh hr⟩

/-- A step keeps it: a read that brings bytes in the state `Identify` is followed by a response,
which leads to another state or to TLS, or by a panic. -/
theorem unread_step {r r' : EventLoop} {l : Label} (h : Unread r)
    (hstep : step json client r l = some r') : Unread r' := by
  cases step_outcome hstep with
  | send =>
    intro hphase htls hstate
    obtain ⟨hread, hfresh⟩ := h hphase htls hstate
    exact ⟨hread, hfresh.rBuf, hfresh.responses, hfresh.heartbeat⟩
  | close => exact h
  | pollPlain hphase _ =>
    exact h.keep ⟨_, hphase⟩ rfl id (.refl _ _) fun hf => ⟨hf.rBuf, hf.responses, hf.heartbeat⟩
  | pollTls _ => rintro ⟨evts, ⟨⟩⟩
  | pollFailed => rintro ⟨evts, ⟨⟩⟩
  | @tls answer _ =>
    rintro ⟨evts, hphase⟩
    cases answer <;> cases hphase
  | @event k e evts io x hphase hevent =>
    cases k with
    | tls =>
      rintro ⟨evts', hafter⟩
      rcases x with (r' | ⟨halt, r'⟩) | r' <;> cases hafter
    | plain =>
      have hplain : ∃ evts, r.phase = .plain evts := ⟨_, hphase⟩
      cases hevent with
      | close _ => rintro ⟨evts', ⟨⟩⟩
      | noClose _ => exact h.keep hplain rfl id (.refl _ _) id
      | @messages _ c hflushed =>
        have hlog := (inert_of_flushed hflushed).mono fun o ho bs => ho.1 .plain bs
        have hconn := hflushed.conn
        refine h.keep hplain rfl (fun hstate => ?_) hlog fun hf => ?_
        · simp only [after] at hstate
          rwa [hconn] at hstate
        · simp only [after]
          rw [hconn]
          exact ⟨hf.rBuf, hf.responses, hf.heartbeat⟩
      | messagesPanic _ _ _ _ => rintro ⟨evts', ⟨⟩⟩
      | readable hread =>
        cases hread with
        | panicked _ _ _ => rintro ⟨evts', ⟨⟩⟩
        | refused _ _ _ _ _ => rintro ⟨evts', ⟨⟩⟩
        | noResponse _ _ _ _ => rintro ⟨evts', ⟨⟩⟩
        | eof _ => exact h.keep hplain rfl id (.refl _ _) id
        | wouldBlock _ =>
          have hread : ∀ bs, Obs.disconnected ≠ .read .plain bs := inert_disconnected.1 .plain
          exact h.keep hplain rfl id (.snoc hread) fun hf => ⟨hf.rBuf, hf.responses, hf.heartbeat⟩
        | started _ hfed hstarted =>
          intro _ _ hidentify
          have hstate := hfed.state.symm.trans hidentify
          rw [hstarted] at hstate
          cases hstate
        | unasked _ hfed hawaits _ _ =>
          intro _ _ hidentify
          have hstate := hfed.state.symm.trans hidentify
          rw [hstate] at hawaits
          cases hawaits
        | producer _ _ hk _ _ => cases hk
        | tlsSwitch _ _ _ _ _ _ _ =>
          exact fun _ htls => absurd htls (show (1 : UInt8) ≠ 0 by decide)
        | answered _ _ _ hnext => exact fun _ _ hidentify => absurd hidentify hnext.ne_identify
      | writable hwrite =>
        have hlog := (inert_of_write hwrite .plain evts).mono fun o ho bs => ho.1 .plain bs
        cases hwrite with
        | command hsends _ =>
          refine h.keep hplain rfl (fun hstate => ?_) hlog fun hf =>
            ⟨hf.rBuf, hf.responses, hf.heartbeat⟩
          simp only [after] at hstate
          subst hstate
          exact hsends.eq_identify
        | mute hmute =>
          refine h.keep hplain rfl (fun hstate => ?_) hlog fun hf =>
            ⟨hf.rBuf, hf.responses, hf.heartbeat⟩
          simp only [after] at hstate
          subst hstate
          exact hmute.eq_identify
        | started hstarted hbeat hflushed =>
          intro _ _ hidentify
          have hstate : r.conn.state = .identify := by
            simp only [after] at hidentify
            rw [hflushed.conn, hbeat.same] at hidentify
            exact hidentify
          rw [hstarted] at hstate
          cases hstate
        | startedPanic _ _ _ _ _ => rintro ⟨evts', ⟨⟩⟩

/-- It holds at the start. -/
theorem unread_start (client : Client) (cmds : List Cmd) (alloc : Alloc) (clock : ℕ) :
    Unread (start client cmds alloc clock) :=
  fun _ _ _ => ⟨rfl, rfl, rfl, rfl⟩

/-! ## The switch -/

/-- The event loop `t` right after the switch to TLS that `u` made with a read of `bs`: the
connection `c` after the read, less the response that asked for TLS. -/
structure Switch (u t : EventLoop) (bs : List UInt8) (c : Conn) (resp : String) : Prop where
  waiting : (∃ evts, u.phase = .plain evts) ∧ u.conn.state = .identify
  fed : ∃ fs, Conn.Fed .plain bs fs u.conn c
  responses : c.responses = t.conn.responses ++ [.response resp]
  eq : t = { u with
    nsqdConfig := t.nsqdConfig
    tls := 1
    phase := .plain []
    conn := { c with
      responses := t.conn.responses
      msgTimeout := t.nsqdConfig.msgTimeout
      state := .tls
      log := c.log ++ [.response (.response resp), .tlsEnabled] } }

/-- There is no other way to set `tls`. -/
theorem switch_of_step {u t : EventLoop} {io : Io} (htls : u.tls = 0)
    (hstep : step json client u (.event io) = some t) (htls' : t.tls = 1) :
    ∃ bs c resp, Switch u t bs c resp := by
  have hsame : t.tls = u.tls → ∃ bs c resp, Switch u t bs c resp := by
    intro h
    rw [htls', htls] at h
    exact absurd h (by decide)
  cases step_outcome hstep with
  | @event k e evts _ x hphase hevent =>
    cases hevent with
    | close _ => exact hsame rfl
    | noClose _ => exact hsame rfl
    | messages _ => exact hsame rfl
    | messagesPanic _ _ _ _ => exact hsame rfl
    | readable hread =>
      cases hread with
      | panicked _ _ _ => exact hsame rfl
      | refused _ _ _ _ hr' =>
        refine hsame ?_
        simp only [after]
        rw [hr']
      | noResponse _ _ _ _ => exact hsame rfl
      | eof _ => exact hsame rfl
      | wouldBlock _ => exact hsame rfl
      | started _ _ _ => exact hsame rfl
      | unasked _ _ _ _ _ => exact hsame rfl
      | producer _ _ _ _ _ => exact hsame rfl
      | answered _ _ _ _ => exact hsame rfl
      | @tlsSwitch bs fs c rs resp cfg _ hfed hk hstate hresp _ _ =>
        subst hk
        exact ⟨bs, c, resp, ⟨⟨_, hphase⟩, hstate⟩, ⟨fs, hfed⟩, hresp, rfl⟩
    | writable hwrite =>
      cases hwrite with
      | command _ _ => exact hsame rfl
      | mute _ => exact hsame rfl
      | started _ hbeat _ =>
        refine hsame ?_
        simp only [after]
        rw [hbeat.same]
      | startedPanic _ hbeat _ _ _ =>
        refine hsame ?_
        simp only [after]
        rw [hbeat.same]

/-- The plaintext up to the switch is what the switching read brought, and nothing is left of it if
and only if it is exact. -/
theorem Switch.fresh_iff_exact {u t : EventLoop} {bs : List UInt8} {c : Conn} {resp : String}
    (h : Switch u t bs c resp) (hunread : Unread u) (htls : u.tls = 0) :
    t.conn.Fresh ↔ Exact (u.conn.storage 1) (bytesRead .plain t.conn.log) := by
  obtain ⟨hnone, hfresh⟩ := hunread h.waiting.1 htls h.waiting.2
  obtain ⟨fs, hfed⟩ := h.fed
  have hbytes : bytesRead .plain t.conn.log = bs := by
    have hlast : bytesRead .plain [.response (.response resp), .tlsEnabled] = [] := rfl
    rw [h.eq]
    simp only
    rw [hfed.log, bytesRead_append, bytesRead_append, hnone, bytesRead_read, hlast,
      List.nil_append, List.append_nil]
  rw [hbytes, ← hfed.fresh_iff_exact hfresh h.responses]
  have hbuf : t.conn.rBuf = c.rBuf := by rw [h.eq]
  have hbeat : t.conn.heartbeat = c.heartbeat := by rw [h.eq]
  rw [← hbuf, ← hbeat]
  exact ⟨fun h => ⟨h.rBuf, h.responses, h.heartbeat⟩, fun h => ⟨h.1, h.2.1, h.2.2⟩⟩

/-! ## After the switch -/

/-- The plain loop has been left for TLS. -/
def Switched (r : EventLoop) : Prop := ∀ evts, r.phase = .plain evts → evts = [] ∧ r.tls = 1

theorem Switch.switched {u t : EventLoop} {bs : List UInt8} {c : Conn} {resp : String}
    (h : Switch u t bs c resp) : Switched t := by
  rw [h.eq]
  rintro evts ⟨⟩
  exact ⟨rfl, rfl⟩

/-- There is no event of the plain loop any more. -/
theorem Switched.eq_tls {r : EventLoop} {k : Stream} {e : Event} {evts : List Event}
    (h : Switched r) (hphase : r.phase = phaseOf k (e :: evts)) : k = .tls := by
  cases k with
  | plain => cases (h _ hphase).1
  | tls => rfl

theorem switched_step {r r' : EventLoop} {l : Label} (h : Switched r)
    (hstep : step json client r l = some r') : Switched r' := by
  cases step_outcome hstep with
  | send => exact h
  | close => exact h
  | pollPlain hphase htls => exact absurd (h _ hphase).2 htls
  | pollTls _ => rintro evts ⟨⟩
  | pollFailed => rintro evts ⟨⟩
  | @tls answer _ =>
    rintro evts hphase
    cases answer <;> cases hphase
  | @event k e evts _ x hphase _ =>
    cases h.eq_tls hphase
    rintro evts' hafter
    rcases x with (r' | ⟨halt, r'⟩) | r' <;> cases hafter

/-- Up to the end of the TLS handshake the connection is as the switch left it. -/
def Lingers (c : Conn) (r : EventLoop) : Prop :=
  (r.phase = .plain [] ∨ r.phase = .handshaking) → r.conn = { c with r := r.conn.r }

theorem lingers_of_ne {c : Conn} {r : EventLoop} (hplain : r.phase ≠ .plain [])
    (hhandshaking : r.phase ≠ .handshaking) : Lingers c r :=
  fun h => (h.elim hplain hhandshaking).elim

theorem lingers_step {c : Conn} {r r' : EventLoop} {l : Label} (h : Lingers c r) (hr : Switched r)
    (hstep : step json client r l = some r') : Lingers c r' := by
  cases step_outcome hstep with
  | send =>
    intro hphase
    simp only
    rw [h hphase]
  | close => exact h
  | pollPlain hphase htls => exact absurd (hr _ hphase).2 htls
  | pollTls _ => exact lingers_of_ne nofun nofun
  | pollFailed => exact lingers_of_ne nofun nofun
  | @tls answer hphase =>
    have hconn := h (hphase.imp_left fun h => h.1)
    intro _
    cases answer <;> exact hconn
  | @event k e evts _ x hphase _ =>
    cases hr.eq_tls hphase
    rcases x with (r' | ⟨halt, r'⟩) | r' <;> exact lingers_of_ne nofun nofun

/-- Since the connection was `c₀`, everything that was decoded, every response that was taken and
every message that was sent came over TLS, and so did everything that is pending. -/
def Sealed (c₀ : Conn) (r : EventLoop) : Prop :=
  ∃ obs fs rest, r.conn.log = c₀.log ++ obs ∧ OverTls obs fs rest ∧
    (¬ Crashed r → rest = r.conn.rBuf ∧ c₀.Held fs r.conn)

/-- A fresh connection is sealed, and only a fresh one is. -/
theorem sealed_self_iff {r : EventLoop} (h : ¬ Crashed r) : Sealed r.conn r ↔ r.conn.Fresh := by
  constructor
  · rintro ⟨obs, fs, rest, hlog, hover, hheld⟩
    obtain ⟨rfl, hself⟩ := hheld h
    have hobs : obs = [] := List.self_eq_append_right.mp hlog
    subst hobs
    obtain ⟨hwire, hbuf⟩ := List.append_eq_nil_iff.mp hover.tls.symm
    cases fs with
    | nil => exact hself.fresh hbuf
    | cons f fs =>
      rw [wire_cons] at hwire
      exact absurd (List.append_eq_nil_iff.mp hwire).1 f.wire_ne_nil
  · intro hfresh
    exact ⟨[], [], [], (List.append_nil _).symm, .nil, fun _ => ⟨hfresh.rBuf.symm, hfresh.held⟩⟩

/-- What neither reads nor takes a response keeps the seal. -/
theorem Sealed.untouched {c₀ : Conn} {r r' : EventLoop} (h : Sealed c₀ r)
    (hcrash : Crashed r → Crashed r') (hconn : r.conn.Untouched r'.conn) : Sealed c₀ r' := by
  obtain ⟨obs, fs, rest, hlog, hover, hheld⟩ := h
  obtain ⟨tail, htail, hinert⟩ := hconn.log
  refine ⟨obs ++ tail, fs, rest, by rw [htail, hlog, List.append_assoc], hover.inert hinert, ?_⟩
  intro hrunning
  obtain ⟨hrest, hheld⟩ := hheld fun hr => hrunning (hcrash hr)
  exact ⟨hrest.trans hconn.rBuf.symm, hheld.untouched hconn⟩

/-- What a read from the TLS stream leaves. -/
theorem Sealed.fed {c₀ c : Conn} {r : EventLoop} {bs : List UInt8} {gs : List Frame}
    (h : Sealed c₀ r) (hr : ¬ Crashed r) (hfed : Conn.Fed .tls bs gs r.conn c) :
    ∃ obs fs, c.log = c₀.log ++ obs ∧ OverTls obs fs c.rBuf ∧ c₀.Held fs c := by
  obtain ⟨obs, fs, rest, hlog, hover, hheld⟩ := h
  obtain ⟨rfl, hself⟩ := hheld hr
  refine ⟨obs ++ [.read .tls bs], fs ++ gs, ?_, hover.read hfed.bytes hfed.parsed.honest_or_cut,
    hself.fed hfed⟩
  rw [hfed.log, hlog, List.append_assoc]

/-- The read of a readable connection keeps the seal. -/
theorem sealed_read {c₀ : Conn} {r : EventLoop} {io : Io} {x : Except Leave EventLoop}
    (h : Sealed c₀ r) (hr : ¬ Crashed r) (hx : ReadOutcome json client .tls io r x)
    (evts : List Event) : Sealed c₀ (after .tls evts x) := by
  cases hx with
  | panicked _ hlog _ =>
    obtain ⟨obs, fs, rest, hlog₀, hover, -⟩ := h
    obtain ⟨tail, htail, hreads⟩ := hlog
    refine ⟨obs ++ tail, fs, _, ?_, hover.reads hreads, fun hc => absurd (.inl ⟨_, rfl⟩) hc⟩
    simp only [after]
    rw [htail, hlog₀, List.append_assoc]
  | @refused bs fs c rs resp halt r' _ hfed hresp hhalt hr' =>
    obtain ⟨obs, fs, hlog, hover, hheld⟩ := h.fed hr hfed
    have hpop : resp ∈ fs.filterMap Conn.reply? := hheld.responses resp (by rw [hresp]; simp)
    refine ⟨obs ++ [.response resp], fs, _, ?_, hover.pop hpop,
      fun hc => absurd (crashed_of_refused hhalt) hc⟩
    simp only [after]
    rw [hr', hlog, List.append_assoc]
  | noResponse _ hfed _ _ =>
    obtain ⟨obs, fs, hlog, hover, -⟩ := h.fed hr hfed
    exact ⟨obs, fs, _, hlog, hover, fun hc => absurd (.inl ⟨_, rfl⟩) hc⟩
  | eof _ => exact h.untouched (fun hc => absurd hc hr) (.refl _)
  | wouldBlock _ =>
    exact h.untouched (fun hc => absurd hc hr)
      ⟨.snoc inert_disconnected, rfl, rfl, id, [], (List.append_nil _).symm, by simp⟩
  | started _ hfed _ =>
    obtain ⟨obs, fs, hlog, hover, hheld⟩ := h.fed hr hfed
    exact ⟨obs, fs, _, hlog, hover, fun _ => ⟨rfl, hheld⟩⟩
  | unasked _ hfed _ _ _ =>
    obtain ⟨obs, fs, hlog, hover, hheld⟩ := h.fed hr hfed
    exact ⟨obs, fs, _, hlog, hover, fun _ => ⟨rfl, hheld.responses, hheld.heartbeat, hheld.sent⟩⟩
  | producer _ hfed _ _ _ =>
    obtain ⟨obs, fs, hlog, hover, hheld⟩ := h.fed hr hfed
    exact ⟨obs, fs, _, hlog, hover, fun _ => ⟨rfl, hheld.responses, hheld.heartbeat, hheld.sent⟩⟩
  | tlsSwitch _ _ hk _ _ _ _ => cases hk
  | @answered bs _ c rs resp cfg st _ hfed hresp hnext =>
    obtain ⟨obs, fs, hlog, hover, hheld⟩ := h.fed hr hfed
    have hpop : .response resp ∈ fs.filterMap Conn.reply? :=
      hheld.responses _ (by rw [hresp]; simp)
    refine ⟨obs ++ [.response (.response resp)], fs, c.rBuf, ?_, hover.pop hpop,
      fun _ => ⟨rfl, ?_, hheld.heartbeat, hheld.sent⟩⟩
    · simp only [after]
      rw [hlog, List.append_assoc]
    · intro resp' hresp'
      refine hheld.responses resp' ?_
      rw [hresp]
      exact List.mem_append_left _ hresp'

/-- The write of a writable connection neither reads nor takes a response. -/
theorem untouched_write {r : EventLoop} {io : Io} {x : Except Leave EventLoop}
    (hx : WriteOutcome json client .tls io r x) (evts : List Event) :
    r.conn.Untouched (after .tls evts x).conn := by
  have hlog := inert_of_write hx .tls evts
  have hflush : ∀ {r₁ : EventLoop} {cmds : List Cmd} {c : Conn}, Since Inert r.conn.log c.log →
      Beat .tls io r r₁ → Conn.Flushed .tls cmds { r₁.conn with r := [] } c →
      r.conn.Untouched c := by
    intro r₁ cmds c hlog hbeat hflushed
    have hc := hflushed.untouched
    have hsame := hbeat.same
    refine ⟨hlog, ?_, ?_, fun hquiet => ?_, ?_⟩
    · rw [hc.rBuf, hsame]
    · rw [hc.responses, hsame]
    · have hquiet : r₁.conn.heartbeat = true := hc.heartbeat hquiet
      cases hbeat with
      | quiet _ => exact hquiet
      | nop _ _ => cases hquiet
    · have hs : r₁.conn.s = r.conn.s := by rw [hsame]
      rw [← hs]
      exact hc.sent
  cases hx with
  | command _ _ => exact ⟨hlog, rfl, rfl, id, [], (List.append_nil _).symm, nofun⟩
  | mute _ => exact ⟨hlog, rfl, rfl, id, [], (List.append_nil _).symm, nofun⟩
  | started _ hbeat hflushed => exact hflush hlog hbeat hflushed
  | startedPanic _ hbeat _ _ hflushed => exact hflush hlog hbeat hflushed

/-- Every step keeps the seal. -/
theorem sealed_step {c₀ : Conn} {r r' : EventLoop} {l : Label} (h : Sealed c₀ r)
    (hr : Switched r) (hstep : step json client r l = some r') : Sealed c₀ r' := by
  have hcrash : Crashed r → Crashed r' := fun hc => crashed_of_step hc hstep
  have hkeep : r.conn.Untouched r'.conn → Sealed c₀ r' := h.untouched hcrash
  cases step_outcome hstep with
  | send =>
    exact hkeep ⟨.refl _ _, rfl, rfl, id, [], (List.append_nil _).symm, nofun⟩
  | close => exact hkeep (.refl _)
  | pollPlain hphase htls => exact absurd (hr _ hphase).2 htls
  | pollTls _ => exact hkeep (.refl _)
  | pollFailed => exact hkeep (.refl _)
  | @tls answer _ => cases answer <;> exact hkeep (.refl _)
  | @event k e evts io x hphase hevent =>
    have hrunning : ¬ Crashed r := not_crashed_of_phase hphase
    cases hr.eq_tls hphase
    cases hevent with
    | close _ =>
      exact hkeep ⟨.snoc (inert_shutdown .tls), rfl, rfl, id, [⟨0, [], .inline⟩], rfl, by simp⟩
    | noClose _ => exact hkeep (.refl _)
    | messages hflushed =>
      have hc := hflushed.untouched
      exact hkeep ⟨hc.log, hc.rBuf, hc.responses, hc.heartbeat, hc.sent⟩
    | messagesPanic _ _ _ hflushed =>
      have hc := hflushed.untouched
      exact hkeep ⟨hc.log, hc.rBuf, hc.responses, hc.heartbeat, hc.sent⟩
    | readable hread => exact sealed_read h hrunning hread evts
    | writable hwrite => exact hkeep (untouched_write hwrite evts)

/-- A run keeps the seal. -/
theorem sealed_run {c₀ : Conn} {t r : EventLoop} {ls : List Label} (h : Sealed c₀ t)
    (ht : Switched t) (hrun : Machine.Run (step json client) Machine.anything t ls r) :
    Sealed c₀ r :=
  (hrun.invariant (fun r => Switched r ∧ Sealed c₀ r) ⟨ht, h⟩ fun _ _ _ h _ hstep =>
    ⟨switched_step h.1 hstep, sealed_step h.2 h.1 hstep⟩).2

/-! ## No plaintext carried -/

/-- Two switches that leave nothing and bring the same server configuration differ in the past
only. -/
theorem Switch.forget_eq {u t : EventLoop} {bs : List UInt8} {c : Conn} {resp : String}
    (h : Switch u t bs c resp) (hfresh : t.conn.Fresh) : t.forget = { u with
      nsqdConfig := t.nsqdConfig
      tls := 1
      phase := .plain []
      conn := { u.conn with
        rBuf := []
        storage := fun n => u.conn.storage (n + 1)
        s := []
        heartbeat := false
        responses := []
        inFlight := 0
        msgTimeout := t.nsqdConfig.msgTimeout
        state := .tls
        log := [] } } := by
  obtain ⟨fs, hfed⟩ := h.fed
  have hbuf : c.rBuf = [] := by
    rw [← hfresh.rBuf, h.eq]
  have hbeat : c.heartbeat = false := by
    rw [← hfresh.heartbeat, h.eq]
  rw [h.eq, hfresh.responses, hfed.same, hbuf, hbeat]
  rfl

/-- Take any run up to a state `u` before the switch to TLS, and the event with which it switches.
The bytes read from the plain socket up to there, however they were cut into reads, are frames and
nothing else, one of them a reply and none of them a heartbeat, if and only if the TLS loop is
entered with an empty read buffer, no responses and no heartbeat; and if and only if in every run
from there on everything decoded, taken and sent came over TLS.  Moreover, if they are, then with
any other such plaintext in that event, and the same server configuration in the reply, every run
from there on is the same but for what was sent, counted and logged before.

**Proof sketch.** Before the switch nothing was read (`unread_step`), so the plaintext is what one
read brought to a fresh connection (`Switch.fresh_iff_exact`).  Up to the TLS loop the connection
stays as it is (`lingers_step`); from a fresh one on, every step keeps the seal (`sealed_step`).
Two fresh switches differ in the past only, which passes through every run (`run_since`). -/
theorem no_plaintext_carried_iff {cmds : List Cmd} {alloc : Alloc} {clock : ℕ} {ls : List Label}
    {u t : EventLoop} {io : Io}
    (hrun : Machine.Run (step json client) Machine.anything (start client cmds alloc clock) ls u)
    (htls : u.tls = 0) (hstep : step json client u (.event io) = some t) (htls' : t.tls = 1) :
    (∀ ls' r r', Machine.Run (step json client) Machine.anything t ls' r →
      step json client r (.tls .connected) = some r' →
      (r'.conn.Fresh ↔ Exact (u.conn.storage 1) (bytesRead .plain t.conn.log))) ∧
    ((∀ ls' r, Machine.Run (step json client) Machine.anything t ls' r → Sealed t.conn r) ↔
      Exact (u.conn.storage 1) (bytesRead .plain t.conn.log)) ∧
    (Exact (u.conn.storage 1) (bytesRead .plain t.conn.log) →
      ∀ io' t', step json client u (.event io') = some t' → t'.tls = 1 →
      t'.nsqdConfig = t.nsqdConfig →
      Exact (u.conn.storage 1) (bytesRead .plain t'.conn.log) →
      ∀ ls' r, Machine.Run (step json client) Machine.anything t ls' r →
        ∃ q : EventLoop, r = q.since t.conn.past ∧
          Machine.Run (step json client) Machine.anything t' ls' (q.since t'.conn.past)) := by
  have hunread : Unread u := hrun.invariant Unread (unread_start client cmds alloc clock)
    fun _ _ _ h _ hstep => unread_step h hstep
  obtain ⟨bs, c, resp, hswitch⟩ := switch_of_step htls hstep htls'
  have hfresh : t.conn.Fresh ↔ Exact (u.conn.storage 1) (bytesRead .plain t.conn.log) :=
    hswitch.fresh_iff_exact hunread htls
  have hphase : t.phase = phaseOf .plain [] := by rw [hswitch.eq]; rfl
  refine ⟨?_, ?_, ?_⟩
  · intro ls' r r' hr hconnected
    have hlingers : Switched r ∧ Lingers t.conn r := by
      refine hr.invariant (fun r => Switched r ∧ Lingers t.conn r)
        ⟨hswitch.switched, fun _ => rfl⟩ ?_
      exact fun _ _ _ h _ hstep => ⟨switched_step h.1 hstep, lingers_step h.2 h.1 hstep⟩
    rw [← hfresh]
    cases step_outcome hconnected with
    | tls hphase =>
      have hconn := hlingers.2 (hphase.imp_left fun h => h.1)
      simp only [onTls]
      rw [hconn]
      exact ⟨fun h => ⟨h.rBuf, h.responses, h.heartbeat⟩,
        fun h => ⟨h.rBuf, h.responses, h.heartbeat⟩⟩
  · rw [← hfresh, ← sealed_self_iff (not_crashed_of_phase hphase)]
    exact ⟨fun h => h [] t .nil, fun h ls' r hr => sealed_run h hswitch.switched hr⟩
  · intro hexact io' t' hstep' htls'' hcfg hexact' ls' r hr
    obtain ⟨bs', c', resp', hswitch'⟩ := switch_of_step htls hstep' htls''
    have hsame : t.forget = t'.forget := by
      rw [hswitch.forget_eq (hfresh.mpr hexact),
        hswitch'.forget_eq ((hswitch'.fresh_iff_exact hunread htls).mpr hexact'), hcfg]
    rw [← since_forget t] at hr
    obtain ⟨q, hq, rfl⟩ := (run_since t.conn.past json client).mp hr
    refine ⟨q, rfl, ?_⟩
    rw [hsame] at hq
    have hrun' := (run_since t'.conn.past json client).mpr ⟨q, hq, rfl⟩
    rwa [since_forget] at hrun'

/-- What arrives over plain TCP is the reply that grants TLS, and in another run the same read
brings a message before it. -/
def plaintext : List UInt8 := (Frame.ofPayload 0 (Utf8.asBytes (granted true false))).wire

set_option maxRecDepth 4000 in
/-- The reply grants TLS; in another run a message comes before it in the same read.  Over TLS both
runs read `OK` and take it. -/
theorem no_plaintext_carried_iff_message :
    ∃ t t' r q : EventLoop, t.tls = 1 ∧ t.conn.s = [] ∧
      t'.conn.s = [⟨0, message "0123456789abcdef" [], .heap 0⟩] ∧
      Sealed t.conn r ∧ bytesRead .tls r.conn.log = [0, 0, 0, 6, 0, 0, 0, 0, 79, 75] ∧
      r.conn.log.getLast? = some (.response (.response "OK")) ∧ r = q.since t.conn.past ∧
      Machine.Run (step serde ⟨"t", "c", none, 1, .default none⟩) Machine.anything t'
        (.tls .connected :: replying "OK") (q.since t'.conn.past) := by
  have hbefore : Machine.exec (step serde ⟨"t", "c", none, 1, .default none⟩) Machine.anything
      (start ⟨"t", "c", none, 1, .default none⟩ [] .exact 0)
      (writing ++ [.poll [⟨.connection, .readable⟩] 0]) = some _ := rfl
  have hexact : Exact (.heap 0) plaintext :=
    ⟨[.ofPayload 0 (Utf8.asBytes (granted true false))], by decide, by decide, by decide, by decide⟩
  have hexact' : Exact (.heap 0)
      ((Frame.ofPayload 2 (message "0123456789abcdef" [])).wire ++ plaintext) :=
    ⟨[.ofPayload 2 (message "0123456789abcdef" []),
      .ofPayload 0 (Utf8.asBytes (granted true false))], by decide, by decide, by decide, by decide⟩
  obtain ⟨-, hsealed, hsame⟩ := @no_plaintext_carried_iff _ _ _ _ _ _ _ _
    ⟨.ok plaintext, fun _ => .ok 0, true⟩ (Machine.Run.of_exec hbefore) rfl rfl rfl
  obtain ⟨q, hq, hrun⟩ := hsame hexact
    ⟨.ok ((Frame.ofPayload 2 (message "0123456789abcdef" [])).wire ++ plaintext),
      fun _ => .ok 0, true⟩ _ rfl rfl rfl hexact'
    (.tls .connected :: replying "OK") _ (Machine.Run.of_exec rfl)
  have hreached := hsealed.mpr hexact (.tls .connected :: replying "OK") _ (Machine.Run.of_exec rfl)
  exact ⟨_, _, _, q, rfl, rfl, rfl, hreached, rfl, rfl, hq, hrun⟩

set_option maxRecDepth 4000 in
/-- A server, or somebody before it, sends `OK` and then the reply that grants TLS, in one read.
The TLS loop begins with `OK` as a response, and with the first byte read over TLS, which is no
frame, it takes it for the answer it waits for. -/
theorem plaintext_carried_ok :
    ∃ t r : EventLoop, Machine.Run (step serde ⟨"t", "c", none, 1, .default none⟩) Machine.anything
        (start ⟨"t", "c", none, 1, .default none⟩ [] .exact 0)
        (writing ++ reading ([0, 0, 0, 6, 0, 0, 0, 0, 79, 75] ++ plaintext) ++
          [.tls .connected]) t ∧
      t.phase = .tls [] ∧ t.conn.responses = [.response "OK"] ∧
      Machine.Run (step serde ⟨"t", "c", none, 1, .default none⟩) Machine.anything t
        (reading [0]) r ∧
      bytesRead .tls r.conn.log = [0] ∧
      r.conn.log.getLast? = some (.response (.response "OK")) ∧ r.conn.state = .subscribe := by
  exact ⟨_, _, Machine.Run.of_exec rfl, rfl, rfl, Machine.Run.of_exec rfl, rfl, rfl, rfl⟩

end EventLoop

end NsqClient
