import NsqClient.Completeness
import NsqClient.Dispatch

set_option relaxedAutoImplicit false
set_option autoImplicit false

/-!
# Valid messages

The decoder forwards every message frame, and a consumer takes 26 bytes off each of them before it
calls the handler: the timestamp, the number of attempts and the id.  An empty message it takes for
the end of the connection.  On a shorter one it panics while it holds the lock, unless `split_to`
gives it what there is of the id.  So the consumers are safe if the server sends no short message
frame and no read ends in the last bytes of one.

## Main definitions

* `NsqClient.BytesMsg.Valid` — long enough for a consumer.
* `NsqClient.Conn.Substantial` — the message frames a read gets to are.

## Main results

* `NsqClient.BytesMsg.Valid.handled`, `NsqClient.BytesMsg.consumes_iff` — what a consumer handles.
* `NsqClient.Conn.forwarded_valid_iff` — the messages forwarded are valid exactly if the frames are
  substantial.
-/

namespace NsqClient

/-! ## What a consumer needs -/

/-- Long enough for the fields of a message. -/
def BytesMsg.Valid (m : BytesMsg) : Prop := 26 ≤ m.bytes.length

instance (m : BytesMsg) : Decidable m.Valid := inferInstanceAs (Decidable (_ ≤ _))

/-- What a consumer makes of a payload, as far as it goes. -/
def BytesMsg.fields (m : BytesMsg) : Msg :=
  let (timestamp, attemps, id, body) := msgFields m.bytes
  ⟨m.timeout, timestamp, attemps, id, body⟩

/-- A consumer does not panic on a message if and only if there are ten bytes, and the capacity of
the sixteen after them. -/
theorem BytesMsg.consumerMsg_ok_iff {m : BytesMsg} {msg : Msg} :
    Dispatch.consumerMsg m = .ok msg ↔ 10 ≤ m.bytes.length ∧
      16 ≤ m.storage.capacity (m.bytes.length - 10) ∧ m.fields = msg := by
  have hok : Dispatch.consumerMsg m = .ok msg ↔
      ∃ x, decodeMsg m.frame = .ok x ∧ (⟨m.timeout, x.1, x.2.1, x.2.2.1, x.2.2.2⟩ : Msg) = msg := by
    rw [Dispatch.consumerMsg]
    cases decodeMsg m.frame <;> simp [Except.map]
  rw [hok]
  constructor
  · rintro ⟨x, hx, hmsg⟩
    obtain ⟨hlen, hcap, rfl⟩ := decodeMsg_ok_iff.mp hx
    exact ⟨hlen, hcap, hmsg⟩
  · rintro ⟨hlen, hcap, hmsg⟩
    exact ⟨_, decodeMsg_ok_iff.mpr ⟨hlen, hcap, rfl⟩, hmsg⟩

/-- A consumer does not panic on a valid message. -/
theorem BytesMsg.Valid.consumerMsg_eq {m : BytesMsg} (h : m.Valid) :
    Dispatch.consumerMsg m = .ok m.fields := by
  rw [Valid] at h
  exact consumerMsg_ok_iff.mpr ⟨by omega, le_trans (by omega) (m.storage.le_capacity _), rfl⟩

/-- It does not take one for the end of the connection either. -/
theorem BytesMsg.Valid.handled {m : BytesMsg} (h : m.Valid) :
    m.bytes ≠ [] ∧ ∃ msg, Dispatch.consumerMsg m = .ok msg := by
  refine ⟨?_, _, h.consumerMsg_eq⟩
  rintro hnil
  rw [Valid, hnil] at h
  exact absurd h (by decide)

/-- A consumer panics on a shorter message, unless it has ten bytes and the capacity of the
sixteen after them; then it hands on a message with what there is of the id. -/
theorem BytesMsg.consumes_iff {m : BytesMsg} :
    (∃ msg, Dispatch.consumerMsg m = .ok msg) ↔
      10 ≤ m.bytes.length ∧ 16 ≤ m.storage.capacity (m.bytes.length - 10) := by
  simp only [consumerMsg_ok_iff, exists_and_left, exists_eq', and_true]

namespace Conn

/-! ## What a read forwards -/

/-- The message frames that a read of the bytes `bs` gets to are long enough, as `decode` takes
them: one without its last bytes has to be so without them. -/
def Substantial (c : Conn) (bs : List UInt8) : Prop :=
  ∀ f, c.GetsTo bs f → f.isMessage = true → 26 ≤ f.payload.length

/-- How a read ends: it succeeds, or it panics. -/
def Ends (x : Except (Panic × Conn) Conn) (c : Conn) : Prop := x = .ok c ∨ ∃ p, x = .error (p, c)

theorem exists_ends (x : Except (Panic × Conn) Conn) : ∃ c, Ends x c := by
  rcases x with ⟨p, c⟩ | c
  · exact ⟨c, .inr ⟨p, rfl⟩⟩
  · exact ⟨c, .inl rfl⟩

/-- One read forwards valid messages exactly if the frames it gets to are substantial, or its
vector cannot be allocated. -/
theorem readOne_valid_iff (k : Stream) (c : Conn) (bs : List UInt8) :
    (∀ c', Ends (readOne k c bs) c' → ∀ sent, c'.s = c.s ++ sent → ∀ m ∈ sent, m.Valid) ↔
      (c.config.outputBufferSize.toNat ≤ isizeMax → c.Substantial bs) := by
  have hnone : ∀ {c' : Conn} {sent : List BytesMsg}, c'.s = c.s → c'.s = c.s ++ sent →
      ∀ m ∈ sent, m.Valid := by
    intro c' sent hsame hsent m hm
    rw [hsame] at hsent
    rw [List.self_eq_append_right.mp hsent] at hm
    cases hm
  rcases readOne_cases k c bs with ⟨hsize, hread⟩ | ⟨hsize, rfl, hread⟩ | ⟨hsize, hbs, hread⟩
  · rw [hread]
    refine ⟨fun _ hfits => absurd hfits (Nat.not_le_of_lt hsize), fun _ c' hends sent => ?_⟩
    rcases hends with h | ⟨p, h⟩ <;> cases h
    exact hnone rfl
  · rw [hread]
    refine ⟨fun _ _ f hgets _ => absurd hgets not_getsTo_nil, fun _ c' hends sent => ?_⟩
    rcases hends with h | ⟨p, h⟩ <;> cases h
    exact hnone rfl
  · rw [hread]
    constructor
    · rintro hvalid _ f ⟨gs, rest, hbuf, hparsed, hall⟩ hmsg
      have hdec := decode_wire (c := c.receive k bs) (gs ++ [f]) hbuf hparsed hall
      obtain ⟨c', hends⟩ := exists_ends (decode bs.length (c.receive k bs))
      have hlater := hends
      rw [hdec] at hlater
      obtain ⟨fs, rest', -, -, -, hs⟩ := sent_of_decode hlater
      simp only [emitAll_eq, List.append_assoc] at hs
      exact hvalid c' hends _ hs (f.msg c.msgTimeout (c.storage 1)) (List.mem_append_left _
        (List.mem_map.mpr ⟨f, List.mem_filter.mpr ⟨by simp, hmsg⟩, rfl⟩))
    · intro hsub c' hends sent hsent m hm
      have hforwards : Forwards bs c c' := sent_of_decode hends
      obtain ⟨more, hs, hmore⟩ := hforwards.exists_sent
      rw [hs, List.append_right_inj] at hsent
      obtain ⟨f, hgets, hmsg, rfl⟩ := hmore m (hsent ▸ hm)
      exact hsub hsize f hgets hmsg

/-- A read only adds to the message channel. -/
theorem exists_sent_of_readOne {k : Stream} {c c' : Conn} {bs : List UInt8}
    (h : Ends (readOne k c bs) c') : ∃ sent, c'.s = c.s ++ sent := by
  rcases readOne_cases k c bs with ⟨-, hread⟩ | ⟨-, -, hread⟩ | ⟨-, -, hread⟩
  · rw [hread] at h
    rcases h with h | ⟨p, h⟩ <;> cases h
    exact ⟨[], (List.append_nil _).symm⟩
  · rw [hread] at h
    rcases h with h | ⟨p, h⟩ <;> cases h
    exact ⟨[], (List.append_nil _).symm⟩
  · rw [hread] at h
    obtain ⟨fs, rest, -, -, -, hs⟩ := sent_of_decode h
    exact ⟨_, hs⟩

/-- So does a sequence of reads. -/
theorem exists_sent_of_readAll {k : Stream} {c₀ c : Conn} {chunks : List (List UInt8)}
    (h : readAll k c₀ chunks = .ok c) : ∃ sent, c.s = c₀.s ++ sent := by
  induction chunks using List.reverseRecOn generalizing c with
  | nil =>
    cases h
    exact ⟨[], (List.append_nil _).symm⟩
  | append_singleton chunks bs ih =>
    obtain ⟨c', hc', hone⟩ := readAll_concat_ok.mp h
    obtain ⟨sent, hsent⟩ := ih hc'
    obtain ⟨more, hmore⟩ := exists_sent_of_readOne (.inl hone)
    exact ⟨sent ++ more, by rw [hmore, hsent, List.append_assoc]⟩

/-! ## Every sequence of reads -/

/-- Every message forwarded so far is long enough; so no consumer takes it for the end of the
connection or panics on it. -/
def Forwarded (c₀ c : Conn) : Prop :=
  ∀ sent, c.s = c₀.s ++ sent →
    ∀ m ∈ sent, m.Valid ∧ m.bytes ≠ [] ∧ ∃ msg, Dispatch.consumerMsg m = .ok msg

theorem forwarded_iff {c₀ c : Conn} :
    Forwarded c₀ c ↔ ∀ sent, c.s = c₀.s ++ sent → ∀ m ∈ sent, m.Valid :=
  ⟨fun h sent hsent m hm => (h sent hsent m hm).1,
    fun h sent hsent m hm => ⟨h sent hsent m hm, (h sent hsent m hm).handled⟩⟩

/-- One more read. -/
theorem forwarded_concat_iff {k : Stream} {c₀ c : Conn} {chunks : List (List UInt8)}
    (h : readAll k c₀ chunks = .ok c) (hc : Forwarded c₀ c) (bs : List UInt8) :
    (∀ c', Ends (readOne k c bs) c' → Forwarded c₀ c') ↔
      (c.config.outputBufferSize.toNat ≤ isizeMax → c.Substantial bs) := by
  rw [← readOne_valid_iff k c bs]
  obtain ⟨before, hbefore⟩ := exists_sent_of_readAll h
  constructor
  · intro hall c' hends sent hsent m hm
    rw [hbefore, List.append_assoc] at hsent
    exact (hall c' hends _ hsent m (List.mem_append_right _ hm)).1
  · intro hall c' hends
    rw [forwarded_iff]
    intro sent hsent m hm
    obtain ⟨more, hmore⟩ := exists_sent_of_readOne hends
    rw [hmore, hbefore, List.append_assoc, List.append_right_inj] at hsent
    rw [← hsent] at hm
    rcases List.mem_append.mp hm with hm | hm
    · exact (hc before hbefore m hm).1
    · exact hall c' hends more hmore m hm

/-- Every stream of bytes and every cutting of it into reads, from any connection: at every point
of it, also after a read that panics, every message forwarded has at least 26 bytes, and so a
consumer neither panics on it nor takes it for the end of the connection, if and only if every
message frame that a read gets to has a payload of at least 26 bytes, as `decode` takes it.

**Proof sketch.** Induction on the reads: one more read keeps the messages valid exactly if the
frames it gets to are substantial. -/
theorem forwarded_valid_iff (k : Stream) (c₀ : Conn) (chunks : List (List UInt8)) :
    (∀ pre c, pre <+: chunks → Ends (readAll k c₀ pre) c → Forwarded c₀ c) ↔
      ∀ pre bs post c, chunks = pre ++ bs :: post → readAll k c₀ pre = .ok c →
        c.config.outputBufferSize.toNat ≤ isizeMax → c.Substantial bs := by
  induction chunks using List.reverseRecOn with
  | nil =>
    refine ⟨fun _ pre bs post c hsplit => absurd hsplit (by simp), fun _ pre c hpre hends => ?_⟩
    rw [List.prefix_nil.mp hpre] at hends
    rcases hends with h | ⟨p, h⟩ <;> cases h
    intro sent hsent m hm
    rw [List.self_eq_append_right.mp hsent] at hm
    cases hm
  | append_singleton chunks bs ih =>
    constructor
    · intro hall pre bs' post c hsplit hread
      rcases List.eq_nil_or_concat post with rfl | ⟨post', last, rfl⟩
      · obtain ⟨rfl, hlast⟩ := List.append_inj' hsplit rfl
        cases hlast
        have hc : Forwarded c₀ c := hall chunks c (List.prefix_append _ _) (.inl hread)
        refine (forwarded_concat_iff hread hc bs).mp fun c' hends => ?_
        refine hall (chunks ++ [bs]) c' (List.prefix_refl _) ?_
        rw [readAll_concat, hread]
        exact hends
      · rw [List.concat_eq_append, ← List.cons_append, ← List.append_assoc] at hsplit
        obtain ⟨hsplit, -⟩ := List.append_inj' hsplit rfl
        have hbefore := ih.mp fun pre c hpre hends =>
          hall pre c (hpre.trans (List.prefix_append _ _)) hends
        exact hbefore pre bs' post' c hsplit hread
    · intro hall
      have hbefore := ih.mpr fun pre bs' post c hsplit hread =>
        hall pre bs' (post ++ [bs]) c (by rw [hsplit]; simp) hread
      intro pre c hpre hends
      rcases List.prefix_concat_iff.mp hpre with rfl | hpre
      · rw [readAll_concat] at hends
        cases hread : readAll k c₀ chunks with
        | error e =>
          rw [hread] at hends
          exact hbefore chunks c (List.prefix_refl _) (hread ▸ hends)
        | ok c₁ =>
          rw [hread] at hends
          have hc₁ := hbefore chunks c₁ (List.prefix_refl _) (.inl hread)
          exact (forwarded_concat_iff hread hc₁ bs).mpr (hall chunks bs [] c₁ rfl hread) c hends
      · exact hbefore pre c hpre hends

/-- A message frame with an empty payload, in one read: it is forwarded, and a consumer takes it for
the end of the connection.  With a payload of one byte a consumer panics.  A frame with a payload of
26 bytes, of which a read brings 22, is forwarded without the last four, and a consumer hands it on
with the first twelve bytes of the id. -/
theorem forwarded_not_valid :
    ∃ c₁ c₂ c₃ : Conn, readAll .plain (.new (.default none) [] .inline)
        [[0, 0, 0, 4, 0, 0, 0, 2]] = .ok c₁ ∧ c₁.s = [⟨0, [], .inline⟩] ∧
      readAll .plain (.new (.default none) [] .inline)
        [[0, 0, 0, 5, 0, 0, 0, 2, 65]] = .ok c₂ ∧ c₂.s = [⟨0, [65], .inline⟩] ∧
      Dispatch.consumerMsg ⟨0, [65], .inline⟩ = .error .readInt ∧
      readAll .plain (.new (.default none) [] .inline)
        [[0, 0, 0, 30, 0, 0, 0, 2] ++ List.replicate 22 65] = .ok c₃ ∧
      c₃.s = [⟨0, List.replicate 22 65, .inline⟩] ∧
      (Dispatch.consumerMsg ⟨0, List.replicate 22 65, .inline⟩).map Msg.id =
        .ok "AAAAAAAAAAAA" ∧
      ¬ Forwarded (.new (.default none) [] .inline) c₁ ∧
      ¬ Forwarded (.new (.default none) [] .inline) c₂ ∧
      ¬ Forwarded (.new (.default none) [] .inline) c₃ := by
  refine ⟨_, _, _, rfl, rfl, rfl, rfl, rfl, rfl, rfl, by decide, fun h => ?_, fun h => ?_,
    fun h => ?_⟩
  · exact absurd (h [⟨0, [], .inline⟩] rfl ⟨0, [], .inline⟩ (by simp)).1 (by decide)
  · exact absurd (h [⟨0, [65], .inline⟩] rfl ⟨0, [65], .inline⟩ (by simp)).1 (by decide)
  · exact absurd (h [⟨0, List.replicate 22 65, .inline⟩] rfl _ (List.mem_singleton_self _)).1
      (by decide)

end Conn

end NsqClient
