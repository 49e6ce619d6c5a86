import NsqClient.Past
import NsqClient.Steps

set_option relaxedAutoImplicit false
set_option autoImplicit false

/-!
# The two loops

The loop over the plain socket and the loop over the TLS stream are written out twice.  From
`Auth` on they do the same, but for one thing: a producer, whose topic and channel are empty, ends
the handshake in `Subscribe` in the TLS loop, and subscribes in the plain one.

## Main definitions

* `NsqClient.EventLoop.turns` — one of the loops over a sequence of events.
* `NsqClient.EventLoop.seen` — the state, the registered interest and what was logged.
* `NsqClient.EventLoop.Splits` — an event at which the loops part.

## Main results

* `NsqClient.EventLoop.loops_agree_iff` — the loops agree after every event if and only if none of
  the events splits them.
-/

namespace NsqClient

namespace EventLoop

variable {json : Json} {client : Client} {io : Io}

/-! ## Sequences of events -/

/-- What happens to a loop: an event, with what the environment answers, or a command that another
thread sends. -/
inductive Turn where
  | event (e : Event) (io : Io)
  | send (cmd : Cmd)

/-- The loop over the stream `k`, event by event, to the end of `run`.  After a `break` the next
event is one of a later batch. -/
def turns (json : Json) (client : Client) (k : Stream) :
    List Turn → EventLoop → Except (Halt × EventLoop) EventLoop
  | [], r => .ok r
  | .send cmd :: ts, r =>
    turns json client k ts { r with conn := { r.conn with r := r.conn.r ++ [cmd] } }
  | .event e io :: ts, r =>
    match onEvent json client k io e r with
    | .ok r => turns json client k ts r
    | .error (.brk r) => turns json client k ts r
    | .error (.halt h r) => .error (h, r)

/-- An event loop whose log is told as if it were on the TLS stream. -/
def overTls : EventLoop → EventLoop := recast (fun _ => .tls) ⟨[], 0, []⟩

/-- The change of a way to leave a batch that comes with it. -/
def overLeave : Leave → Leave := recastLeave (fun _ => .tls) ⟨[], 0, []⟩

/-- How a sequence of events ends, with the state, the interest registered, and what was read,
written and taken, on whatever stream. -/
def seen : Except (Halt × EventLoop) EventLoop → Option Halt × State × Ready × List Obs
  | .ok r => (none, r.conn.state, r.interest, r.overTls.conn.log)
  | .error (h, r) => (some h, r.conn.state, r.interest, r.overTls.conn.log)

/-- The states from `Auth` on. -/
def Late (st : State) : Prop := st = .auth ∨ st = .subscribe ∨ st = .rdy ∨ st = .started

/-- The loops part at an event: a producer in `Subscribe`, and the connection is writable or the
read brings bytes. -/
def Splits (client : Client) (io : Io) (e : Event) (r : EventLoop) : Prop :=
  client.isProducer = true ∧ r.conn.state = .subscribe ∧
    (e = ⟨.connection, .writable⟩ ∨
      e = ⟨.connection, .readable⟩ ∧ ∃ r', read .plain io r = .ok r')

/-! ## One event -/

/-- The matches on the state agree, but for a producer in `Subscribe`. -/
theorem matches_agree {r : EventLoop} (hne : r.conn.state ≠ .identify)
    (h : client.isProducer = true → r.conn.state ≠ .subscribe) :
    response json client .plain r = response json client .tls r ∧
      command json client .plain r = command json client .tls r := by
  refine ⟨?_, ?_⟩
  · have hawaits : awaits client .plain r.conn.state = awaits client .tls r.conn.state := by
      cases hst : r.conn.state with
      | identify => exact absurd hst hne
      | subscribe =>
        cases hp : client.isProducer with
        | true => exact absurd hst (h hp)
        | false => simp [awaits, hp]
      | _ => rfl
    rw [response_eq, response_eq, hawaits]
  · unfold command plainCommand tlsCommand
    cases hst : r.conn.state with
    | identify => exact absurd hst hne
    | subscribe =>
      have hp : ¬ client.isProducer = true := fun hp => h hp hst
      simp only
      rw [if_neg hp]
    | _ => rfl

/-- A read leaves the state alone. -/
theorem state_of_read (json : Json) (client : Client) {k : Stream} {r r' : EventLoop}
    (h : read k io r = .ok r') : r'.conn.state = r.conn.state := by
  rcases read_outcome json client r with ⟨x, hread, -⟩ | ⟨bs, fs, c, hread, -, hfed⟩
  · rw [hread] at h
    cases h
  · rw [hread] at h
    cases h
    exact hfed.state

/-- The TLS loop does the same whatever streams the log tells of. -/
theorem onEvent_tls_over (e : Event) (r : EventLoop) :
    onEvent json client .tls io e r.overTls =
      (onEvent json client .tls io e r).mapBoth overLeave overTls := by
  have hconst := @onEvent_recast (fun _ => .tls) ⟨[], 0, []⟩ json client .tls io r e
  exact hconst (fun _ r' _ => tlsResponse_recast _ _ client r')
    fun _ => tlsCommand_recast _ _ client r

/-- An event that does not split the loops is handled by the TLS loop as it is by the plain one. -/
theorem onEvent_plain_over {r : EventLoop} {e : Event} (hne : r.conn.state ≠ .identify)
    (h : ¬ Splits client io e r) :
    onEvent json client .tls io e r.overTls =
      (onEvent json client .plain io e r).mapBoth overLeave overTls := by
  have hconst := @onEvent_recast (fun _ => .tls) ⟨[], 0, []⟩ json client .plain io r e
  refine hconst (fun he r' hread => ?_) fun he => ?_
  · have hstate := state_of_read json client hread
    have hagree := @matches_agree json client r' (hstate ▸ hne) fun hp hsub =>
      h ⟨hp, hstate ▸ hsub, .inr ⟨he, r', hread⟩⟩
    rw [hagree.1]
    exact tlsResponse_recast _ _ client r'
  · have hagree := @matches_agree json client r hne fun hp hsub => h ⟨hp, hsub, .inl he⟩
    rw [hagree.2]
    exact tlsCommand_recast _ _ client r

/-- Where an event leaves the loop, unless it ends `run`. -/
def goesOn : Except Leave EventLoop → Option EventLoop
  | .ok r => some r
  | .error (.brk r) => some r
  | .error (.halt _ _) => none

/-- From `Auth` on the plain loop stays there. -/
theorem late_of_event {r r' : EventLoop} {e : Event} (h : Late r.conn.state)
    (hgoes : goesOn (onEvent json client .plain io e r) = some r') : Late r'.conn.state := by
  have hout := onEvent_outcome json client .plain io e r
  generalize onEvent json client .plain io e r = x at hout hgoes
  cases hout with
  | close _ => cases hgoes
  | noClose _ =>
    cases hgoes
    exact h
  | messages hflushed =>
    cases hgoes
    simp only
    rw [hflushed.conn]
    exact h
  | messagesPanic _ _ _ _ => cases hgoes
  | readable hread =>
    cases hread with
    | panicked _ _ _ => cases hgoes
    | refused _ _ _ _ _ => cases hgoes
    | noResponse _ _ _ _ => cases hgoes
    | eof _ =>
      cases hgoes
      exact h
    | wouldBlock _ =>
      cases hgoes
      exact h
    | started _ hfed _ =>
      cases hgoes
      exact hfed.state ▸ h
    | unasked _ hfed _ _ _ =>
      cases hgoes
      exact hfed.state ▸ h
    | producer _ _ hk _ _ => cases hk
    | tlsSwitch _ _ _ hidentify _ _ _ => simp [Late, hidentify] at h
    | answered _ _ _ hnext =>
      cases hgoes
      simp only
      generalize r.conn.state = st at h hnext
      cases hnext with
      | identify _ _ _ => simp [Late] at h
      | tls _ => simp [Late] at h
      | auth => simp [Late]
      | subscribe _ => simp [Late]
  | writable hwrite =>
    cases hwrite with
    | command hsends _ =>
      cases hgoes
      simp only
      generalize r.conn.state = st at h hsends
      cases hsends <;> simp [Late] at h ⊢
    | mute hmute =>
      cases hgoes
      simp only
      generalize r.conn.state = st at h hmute
      cases hmute <;> simp [Late] at h ⊢
    | started hstarted hbeat hflushed =>
      cases hgoes
      simp only
      rw [hflushed.conn]
      simp only
      rw [hbeat.same]
      exact .inr (.inr (.inr hstarted))
    | startedPanic _ _ _ _ _ => cases hgoes

/-- In `Subscribe` the plain loop does not go on to `Started`. -/
theorem not_started_of_plain {r r' : EventLoop} {ready : Ready} (hsub : r.conn.state = .subscribe)
    (hgoes : goesOn (onEvent json client .plain io ⟨.connection, ready⟩ r) = some r') :
    r'.conn.state ≠ .started := by
  have hout := onEvent_outcome json client .plain io ⟨.connection, ready⟩ r
  generalize onEvent json client .plain io ⟨.connection, ready⟩ r = x at hout hgoes
  cases hout with
  | readable hread =>
    cases hread with
    | panicked _ _ _ => cases hgoes
    | refused _ _ _ _ _ => cases hgoes
    | noResponse _ _ _ _ => cases hgoes
    | eof _ =>
      cases hgoes
      simp [hsub]
    | wouldBlock _ =>
      cases hgoes
      simp [Conn.note, hsub]
    | started _ _ hstarted => simp [hsub] at hstarted
    | unasked _ _ _ _ hne => exact absurd hsub hne
    | producer _ _ hk _ _ => cases hk
    | tlsSwitch _ _ _ hidentify _ _ _ => simp [hsub] at hidentify
    | answered _ _ _ hnext =>
      cases hgoes
      rw [hsub] at hnext
      cases hnext
      simp
  | writable hwrite =>
    cases hwrite with
    | command hsends _ =>
      cases hgoes
      rw [hsub] at hsends
      cases hsends
      simp
    | mute hmute =>
      rw [hsub] at hmute
      cases hmute
    | started hstarted _ _ => simp [hsub] at hstarted
    | startedPanic _ _ _ _ _ => cases hgoes

/-- At an event that splits the loops the TLS loop goes on to `Started`. -/
theorem started_of_splits {r : EventLoop} {e : Event} (h : Splits client io e r) :
    ∃ r', onEvent json client .tls io e r.overTls = .ok r' ∧ r'.conn.state = .started := by
  obtain ⟨hp, hsub, rfl | ⟨rfl, r₁, hread⟩⟩ := h
  · have hstate : r.overTls.conn.state = .subscribe := hsub
    have hout := onWritable_outcome json client .tls io r.overTls
    have heq : onEvent json client .tls io ⟨.connection, .writable⟩ r.overTls =
        onWritable json client .tls io r.overTls := rfl
    rw [heq]
    generalize onWritable json client .tls io r.overTls = x at hout
    cases hout with
    | command hsends _ =>
      rw [hstate] at hsends
      cases hsends with
      | subscribe hnot => simp [hp] at hnot
    | mute hmute =>
      rw [hstate] at hmute
      cases hmute
      exact ⟨_, rfl, rfl⟩
    | started hstarted _ _ => simp [hstate] at hstarted
    | startedPanic hstarted _ _ _ _ => simp [hstate] at hstarted
  · have hread' : read .tls io r.overTls = .ok r₁.overTls := by
      have hconst := read_recast (fun _ => .tls) ⟨[], 0, []⟩ .plain io r
      rw [hread] at hconst
      exact hconst
    have hstate : r₁.overTls.conn.state = .subscribe := (state_of_read json client hread).trans hsub
    have hawaits : awaits client .tls .subscribe = false := by simp [awaits, hp]
    have hafter : afterRead json client .tls r₁.overTls = .ok { r₁.overTls with
        conn := { r₁.overTls.conn with state := .started, needResponse := false }
        interest := .writable } := by
      rw [afterRead, response_eq, hstate, hawaits]
      rfl
    have heq : onEvent json client .tls io ⟨.connection, .readable⟩ r.overTls =
        read .tls io r.overTls >>= afterRead json client .tls := rfl
    rw [heq, hread', Except.ok_bind, hafter]
    exact ⟨_, rfl, rfl⟩

/-! ## Every sequence -/

/-- The change of an end of `run` that comes with it. -/
def overEnd (x : Halt × EventLoop) : Halt × EventLoop := (x.1, x.2.overTls)

/-- What is seen does not depend on the streams. -/
theorem seen_congr {x y : Except (Halt × EventLoop) EventLoop}
    (h : x.mapBoth overEnd overTls = y.mapBoth overEnd overTls) : seen x = seen y := by
  have hfields : ∀ {r r' : EventLoop}, r.overTls = r'.overTls → r.conn.state = r'.conn.state ∧
      r.interest = r'.interest ∧ r.overTls.conn.log = r'.overTls.conn.log := by
    intro r r' hover
    have hstate : r.overTls.conn.state = r'.overTls.conn.state := by rw [hover]
    have hinterest : r.overTls.interest = r'.overTls.interest := by rw [hover]
    exact ⟨hstate, hinterest, by rw [hover]⟩
  rcases x with ⟨h₁, r⟩ | r <;> rcases y with ⟨h₂, r'⟩ | r'
  · have hpair : (h₁, r.overTls) = (h₂, r'.overTls) := Except.error.inj h
    obtain ⟨rfl, hover⟩ := Prod.mk.inj hpair
    obtain ⟨hstate, hinterest, hlog⟩ := hfields hover
    simp only [seen, hstate, hinterest, hlog]
  · cases h
  · cases h
  · obtain ⟨hstate, hinterest, hlog⟩ := hfields (Except.ok.inj h)
    simp only [seen, hstate, hinterest, hlog]

/-- The condition: on the way of the plain loop no event splits the loops. -/
def Together (json : Json) (client : Client) (ts : List Turn) (r : EventLoop) : Prop :=
  ∀ pre e io post r', ts = pre ++ .event e io :: post →
    turns json client .plain pre r = .ok r' → ¬ Splits client io e r'

/-- A property of all beginnings of a list. -/
theorem forall_prefix_cons {α : Type} {P : List α → Prop} {a : α} {as : List α} :
    (∀ pre, pre <+: a :: as → P pre) ↔ P [] ∧ ∀ pre, pre <+: as → P (a :: pre) := by
  refine ⟨fun h => ⟨h [] (List.nil_prefix), fun pre hpre => h _ ?_⟩, ?_⟩
  · exact List.cons_prefix_cons.mpr ⟨rfl, hpre⟩
  · rintro ⟨hnil, hcons⟩ pre hpre
    rcases List.prefix_cons_iff.mp hpre with rfl | ⟨pre', rfl, hpre'⟩
    · exact hnil
    · exact hcons pre' hpre'

/-- A command that another thread sends. -/
theorem together_send {cmd : Cmd} {ts : List Turn} {r : EventLoop} :
    Together json client (.send cmd :: ts) r ↔
      Together json client ts { r with conn := { r.conn with r := r.conn.r ++ [cmd] } } := by
  constructor
  · rintro h pre e io post r' rfl hturns
    exact h (.send cmd :: pre) e io post r' rfl hturns
  · rintro h (_ | ⟨t, pre⟩) e io post r' hsplit hturns
    · cases hsplit
    · cases hsplit
      exact h pre e io post r' rfl hturns

/-- An event. -/
theorem together_event {e : Event} {ts : List Turn} {r : EventLoop} :
    Together json client (.event e io :: ts) r ↔ ¬ Splits client io e r ∧
      ∀ r', goesOn (onEvent json client .plain io e r) = some r' → Together json client ts r' := by
  have hgoes : ∀ {pre : List Turn} {r' : EventLoop},
      turns json client .plain (.event e io :: pre) r = .ok r' ↔
        ∃ r₁, goesOn (onEvent json client .plain io e r) = some r₁ ∧
          turns json client .plain pre r₁ = .ok r' := by
    intro pre r'
    rw [turns]
    rcases onEvent json client .plain io e r with (r₁ | ⟨h, r₁⟩) | r₁ <;> simp [goesOn]
  constructor
  · refine fun h => ⟨h [] e io ts r rfl rfl, ?_⟩
    rintro r₁ hr₁ pre e' io' post r' rfl hturns
    exact h (.event e io :: pre) e' io' post r' rfl (hgoes.mpr ⟨r₁, hr₁, hturns⟩)
  · rintro ⟨hfirst, hrest⟩ (_ | ⟨t, pre⟩) e' io' post r' hsplit hturns
    · cases hsplit
      cases hturns
      exact hfirst
    · cases hsplit
      obtain ⟨r₁, hr₁, hturns⟩ := hgoes.mp hturns
      exact hrest r₁ hr₁ pre e' io' post r' rfl hturns

theorem Late.ne_identify {st : State} (h : Late st) : st ≠ .identify := by
  rintro rfl
  simp [Late] at h

/-- After an event that splits the loops they are seen to be in different states. -/
theorem seen_ne_of_splits {e : Event} {r₁ r₂ : EventLoop} (hover : r₁.overTls = r₂.overTls)
    (h : Splits client io e r₁) : seen (turns json client .plain [.event e io] r₁) ≠
      seen (turns json client .tls [.event e io] r₂) := by
  obtain ⟨r', htls, hstarted⟩ := @started_of_splits json client io r₁ e h
  rw [hover, onEvent_tls_over] at htls
  have hplain : ∀ r, goesOn (onEvent json client .plain io e r₁) = some r →
      r.conn.state ≠ .started := by
    obtain ⟨-, hsub, rfl | ⟨rfl, -⟩⟩ := h
    · exact fun _ => not_started_of_plain hsub
    · exact fun _ => not_started_of_plain hsub
  simp only [turns]
  generalize onEvent json client .plain io e r₁ = x at hplain
  generalize onEvent json client .tls io e r₂ = y at htls
  cases y with
  | error y => cases htls
  | ok r =>
    have hstate : r.conn.state = .started := by
      cases htls
      exact hstarted
    intro hseen
    rcases x with (r₃ | ⟨halt, r₃⟩) | r₃
    · exact hplain r₃ rfl ((congrArg (fun x => x.2.1) hseen).trans hstate)
    · cases congrArg Prod.fst hseen
    · exact hplain r₃ rfl ((congrArg (fun x => x.2.1) hseen).trans hstate)

/-- Two event loops that differ in the streams only: they are seen to do the same after every
beginning of a sequence exactly if no event of it splits them.

**Proof sketch.** Induction on the sequence.  At an event that splits the loops, the TLS loop goes
on to `Started` and the plain loop does not.  At every other event the TLS loop does what the plain
one does, on other streams, and both go on, or end, in the same state. -/
theorem agree_iff {ts : List Turn} {r₁ r₂ : EventLoop} (hover : r₁.overTls = r₂.overTls)
    (hlate : Late r₁.conn.state) :
    (∀ pre, pre <+: ts → seen (turns json client .plain pre r₁) =
      seen (turns json client .tls pre r₂)) ↔ Together json client ts r₁ := by
  have hends : ∀ {a b : EventLoop}, a.overTls = b.overTls → seen (.ok a) = seen (.ok b) :=
    fun hab => seen_congr (congrArg Except.ok hab)
  induction ts generalizing r₁ r₂ with
  | nil =>
    refine ⟨fun _ pre e io post r' hsplit => ?_, fun _ pre hpre => ?_⟩
    · exact absurd hsplit (by simp)
    · rw [List.prefix_nil.mp hpre]
      exact hends hover
  | cons t ts ih =>
    have hnil := hends hover
    rw [forall_prefix_cons]
    cases t with
    | send cmd =>
      rw [together_send]
      have hsent : overTls { r₁ with conn := { r₁.conn with r := r₁.conn.r ++ [cmd] } } =
          overTls { r₂ with conn := { r₂.conn with r := r₂.conn.r ++ [cmd] } } := by
        have happend : ∀ r : EventLoop, overTls { r with conn := { r.conn with
            r := r.conn.r ++ [cmd] } } = { r.overTls with conn := { r.overTls.conn with
            r := r.overTls.conn.r ++ [cmd] } } := fun _ => rfl
        rw [happend, happend, hover]
      have hrest := ih hsent hlate
      exact ⟨fun h => hrest.mp h.2, fun h => ⟨hnil, hrest.mpr h⟩⟩
    | event e io =>
      rw [together_event]
      by_cases hsplits : Splits client io e r₁
      · refine ⟨fun h => ?_, fun h => absurd hsplits h.1⟩
        exact absurd (h.2 [] List.nil_prefix) (seen_ne_of_splits hover hsplits)
      · have hsame : (onEvent json client .plain io e r₁).mapBoth overLeave overTls =
            (onEvent json client .tls io e r₂).mapBoth overLeave overTls := by
          rw [← onEvent_plain_over hlate.ne_identify hsplits, hover, onEvent_tls_over]
        have hlater : ∀ r, goesOn (onEvent json client .plain io e r₁) = some r →
            Late r.conn.state := fun r hgoes => late_of_event hlate hgoes
        simp only [turns]
        generalize onEvent json client .plain io e r₁ = x at hsame hlater
        generalize onEvent json client .tls io e r₂ = y at hsame
        have hgoesOn : ∀ {a b : EventLoop}, a.overTls = b.overTls → goesOn x = some a →
            ((∀ pre, pre <+: ts → seen (turns json client .plain pre a) =
              seen (turns json client .tls pre b)) ↔ Together json client ts a) :=
          fun hab hgoes => ih hab (hlater _ hgoes)
        rcases x with (a | ⟨halt, a⟩) | a
        · rcases y with (b | ⟨halt', b⟩) | b
          · have hab : a.overTls = b.overTls := Leave.brk.inj (Except.error.inj hsame)
            simpa [goesOn, hnil, hsplits] using hgoesOn hab rfl
          · cases hsame
          · cases hsame
        · rcases y with (b | ⟨halt', b⟩) | b
          · cases hsame
          · obtain ⟨rfl, hab⟩ := Leave.halt.inj (Except.error.inj hsame)
            have hend : seen (.error (halt, a)) = seen (.error (halt, b)) :=
              seen_congr (congrArg (fun r => Except.error (halt, r)) hab)
            simp [goesOn, hnil, hsplits, hend]
          · cases hsame
        · rcases y with (b | ⟨halt', b⟩) | b
          · cases hsame
          · cases hsame
          · have hab : a.overTls = b.overTls := Except.ok.inj hsame
            simpa [goesOn, hnil, hsplits] using hgoesOn hab rfl

/-- From every connection in one of the states from `Auth` on, over every sequence of events and
commands sent, with every topic, channel, secret and configuration: after each event the two loops
are seen to be in the same state, with the same interest registered, and to have read, written and
taken the same, or to have ended in the same way, if and only if no event splits them. -/
theorem loops_agree_iff {ts : List Turn} {r : EventLoop} (hlate : Late r.conn.state) :
    (∀ pre, pre <+: ts → seen (turns json client .plain pre r) =
      seen (turns json client .tls pre r)) ↔ Together json client ts r :=
  agree_iff rfl hlate

/-- A consumer in `Auth`: its secret is written and accepted, and then it subscribes, in both
loops. -/
theorem loops_agree_iff_auth :
    ∃ (json : Json) (client : Client) (ts : List Turn) (r : EventLoop), ts.length = 3 ∧
      seen (turns json client .plain ts r) = seen (turns json client .tls ts r) ∧
      (seen (turns json client .plain ts r)).2.1 = .subscribe := by
  refine ⟨serde, ⟨"t", "c", some "s", 1, .default none⟩,
    [.event ⟨.connection, .writable⟩ ⟨.ok [], fun _ => .ok 100, true⟩,
      .event ⟨.connection, .readable⟩
        ⟨.ok [0, 0, 0, 6, 0, 0, 0, 0, 79, 75], fun _ => .ok 0, true⟩,
      .event ⟨.connection, .writable⟩ ⟨.ok [], fun _ => .ok 100, true⟩],
    (start ⟨"t", "c", some "s", 1, .default none⟩ [] .exact 0).setState .auth, rfl, ?_, rfl⟩
  refine (loops_agree_iff (.inl rfl)).mpr ?_ _ (List.prefix_refl _)
  exact fun _ _ _ _ _ _ _ hsplits => absurd hsplits.1 (by decide)

/-- A producer in `Subscribe`: the plain loop writes `SUB` and waits for the response, where the TLS
loop is done with the handshake. -/
theorem loops_part_producer :
    ∃ (json : Json) (client : Client) (ts : List Turn) (r : EventLoop),
      client.topic = "" ∧ client.channel = "" ∧ Late r.conn.state ∧
      handshakes (seen (turns json client .plain ts r)).2.2.2 = [.subscribe] ∧
      handshakes (seen (turns json client .tls ts r)).2.2.2 = [] ∧
      seen (turns json client .plain ts r) ≠ seen (turns json client .tls ts r) := by
  refine ⟨serde, ⟨"", "", none, 1, .default none⟩,
    [.event ⟨.connection, .writable⟩ ⟨.ok [], fun _ => .ok 100, true⟩],
    (start ⟨"", "", none, 1, .default none⟩ [] .exact 0).setState .subscribe, rfl, rfl,
    .inr (.inl rfl), rfl, rfl, fun hseen => ?_⟩
  exact absurd (congrArg (fun x => x.2.1) hseen) (by decide)

end EventLoop

end NsqClient
