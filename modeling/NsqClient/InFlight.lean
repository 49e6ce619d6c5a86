import NsqClient.Acknowledgement
import NsqClient.Boundaries
import NsqClient.Steps

set_option relaxedAutoImplicit false
set_option autoImplicit false

/-!
# Messages in flight

The decoder raises `in_flight` for each message frame; `write_messages` lowers it for each command
it takes from the channel, whatever the command is and whatever came of the write.  This file keeps
the books beside the connection, and says for which runs the counter agrees with them.

## Main definitions

* `NsqClient.NsqCmd.settles` — a `FIN` or a `REQ` for one of the messages received.
* `NsqClient.written` — the commands of a batch that the socket takes whole.
* `NsqClient.Books`, `NsqClient.Books.step` — a connection with the number of settled messages, and
  its runs of reads and `write_messages`.
* `NsqClient.Books.Accounted` — the counter agrees with the books in every state of a run, and no
  subtraction underflows.
* `NsqClient.Books.Fair` — the condition on a step.

## Main results

* `NsqClient.Conn.inFlight_of_writeEach` — `write_messages` lowers the counter by the number of
  commands.
* `NsqClient.Books.accounted_iff` — the runs that are accounted for.
-/

namespace NsqClient

/-! ## Settled messages -/

/-- The id by which a consumer answers a message, if it can read the message. -/
def BytesMsg.id? (m : BytesMsg) : Option String :=
  match Dispatch.consumerMsg m with
  | .ok msg => some msg.id
  | .error _ => none

/-- A `FIN` or a `REQ` for one of the messages received. -/
def NsqCmd.settles (received : List BytesMsg) : NsqCmd → Bool
  | fin id => received.any fun m => m.id? = some id
  | requeue id _ => received.any fun m => m.id? = some id
  | _ => false

/-- The commands of a batch that the socket takes whole, `pending` being what is in the write buffer
before. -/
def written (pending : List UInt8) (ws : ℕ → WriteResult) : List NsqCmd → List NsqCmd
  | [] => []
  | cmd :: cmds =>
    if TakesAll (ws 0) (pending ++ cmdBytes cmd.asCmd) then
      cmd :: written [] (fun n => ws (n + 1)) cmds
    else written [] (fun n => ws (n + 1)) cmds

/-- No other commands are written. -/
theorem written_sublist (pending : List UInt8) (ws : ℕ → WriteResult) (cmds : List NsqCmd) :
    (written pending ws cmds).Sublist cmds := by
  induction cmds generalizing pending ws with
  | nil => exact .slnil
  | cons cmd cmds ih =>
    unfold written
    split_ifs
    · exact (ih _ _).cons_cons cmd
    · exact (ih _ _).cons cmd

/-! ## The counter in `write_messages` -/

namespace Conn

/-- One pass of the loop lowers the counter by one. -/
theorem inFlight_of_writeMessage {k : Stream} {res : WriteResult} {cmd : Cmd} {c c' : Conn}
    (h : writeMessage k res c cmd = .ok c') : c'.inFlight = c.inFlight - 1 := by
  obtain ⟨c₁, hwrite, h⟩ := Except.bind_eq_ok.mp h
  obtain ⟨-, hc₁⟩ := wBuf_of_writeCmd hwrite
  have hsame : c₁.inFlight = c.inFlight := by
    rw [hc₁]
    rfl
  rw [write, writeTcp_eq] at h
  cases h
  simp only [note, hsame]

/-- As long as it does not underflow, the loop lowers the counter by the number of commands. -/
theorem inFlight_of_writeEach {k : Stream} {ws : ℕ → WriteResult} {cmds : List Cmd} {c c' : Conn}
    (h : writeEach k ws cmds c = .ok c') (hlen : cmds.length ≤ c.inFlight.toNat) :
    c'.inFlight.toNat + cmds.length = c.inFlight.toNat := by
  induction cmds generalizing ws c with
  | nil =>
    cases h
    rfl
  | cons cmd cmds ih =>
    obtain ⟨c₁, hone, hrest⟩ := Except.bind_eq_ok.mp h
    rw [List.length_cons] at hlen ⊢
    have hle : (1 : UInt32) ≤ c.inFlight := by
      rw [UInt32.le_iff_toNat_le]
      have hone : (1 : UInt32).toNat = 1 := rfl
      omega
    have hlower : c₁.inFlight.toNat = c.inFlight.toNat - 1 := by
      rw [inFlight_of_writeMessage hone, UInt32.toNat_sub_of_le _ _ hle]
      rfl
    have hrec := ih hrest (by omega)
    omega

/-- The first passes of a loop that succeeds succeed. -/
theorem exists_writeEach_take {k : Stream} {ws : ℕ → WriteResult} {cmds : List Cmd} {c c' : Conn}
    (h : writeEach k ws cmds c = .ok c') (n : ℕ) :
    ∃ c₁, writeEach k ws (cmds.take n) c = .ok c₁ := by
  induction cmds generalizing ws c n with
  | nil => exact ⟨c, by rw [List.take_nil]; rfl⟩
  | cons cmd cmds ih =>
    obtain ⟨c₁, hone, hrest⟩ := Except.bind_eq_ok.mp h
    cases n with
    | zero => exact ⟨c, rfl⟩
    | succ n =>
      obtain ⟨c₂, hc₂⟩ := ih hrest n
      refine ⟨c₂, ?_⟩
      rw [List.take_succ_cons, writeEach, hone]
      exact hc₂

/-- A read that succeeds brought nothing, or fed the connection. -/
theorem fed_of_readOne {k : Stream} {c c' : Conn} {bs : List UInt8} (h : readOne k c bs = .ok c') :
    bs = [] ∧ c' = c ∨ ∃ fs, Fed k bs fs c c' := by
  unfold readOne at h
  cases hread : c.read k (.ok bs) with
  | error e =>
    rw [show c.readTcp k (.ok bs) = .error e from hread] at h
    cases h
  | ok x =>
    obtain ⟨res, c₁⟩ := x
    rw [show c.readTcp k (.ok bs) = .ok (res, c₁) from hread] at h
    cases h
    cases res with
    | error e => cases (read_error hread).1
    | ok n =>
      rcases read_ok hread with ⟨hres, -, hc⟩ | ⟨bs', fs, hres, -, hfed⟩
      · cases hres
        exact .inl ⟨rfl, hc⟩
      · cases hres
        exact .inr ⟨fs, hfed⟩

end Conn

/-! ## The books -/

/-- A connection, and how many of the commands written so far were a `FIN` or a `REQ` for a message
received. -/
structure Books where
  conn : Conn
  settled : ℕ

namespace Books

/-- The steps: a read brings bytes, which are decoded; or `write_messages` runs, with these commands
in the channel and these results of its writes. -/
inductive Turn where
  | read (bs : List UInt8)
  | messages (cmds : List NsqCmd) (ws : ℕ → WriteResult)

/-- The connection with these commands in the channel. -/
def load (b : Books) (cmds : List NsqCmd) : Conn := { b.conn with r := cmds.map NsqCmd.asCmd }

/-- A step, unless it panics. -/
def step (k : Stream) (b : Books) : Turn → Option Books
  | .read bs =>
    match Conn.readOne k b.conn bs with
    | .ok c => some { b with conn := c }
    | .error _ => none
  | .messages cmds ws =>
    match (b.load cmds).writeMessages k ws with
    | .ok c =>
      some ⟨c, b.settled + (written b.conn.wBuf.bytes ws cmds).countP (NsqCmd.settles b.conn.s)⟩
    | .error _ => none

/-- The counter is the number of messages received, without those that are settled. -/
def Balanced (b : Books) : Prop := (b.conn.inFlight.toNat : ℤ) = b.conn.s.length - b.settled

/-- Wherever a pass of the loop in `write_messages` subtracts, there is something to subtract
from. -/
def NoUnderflow (k : Stream) (b : Books) : Turn → Prop
  | .read _ => True
  | .messages cmds ws =>
    ∀ n < cmds.length, ∀ c, Conn.writeEach k ws ((cmds.take n).map NsqCmd.asCmd)
      { b.load cmds with r := [] } = .ok c → 0 < c.inFlight.toNat

/-- In every state of the run the counter agrees with the books, and no subtraction underflows. -/
def Accounted (k : Stream) (b₀ : Books) (turns : List Turn) : Prop :=
  ∀ pre t post b b', turns = pre ++ t :: post → Machine.Run (step k) Machine.anything b₀ pre b →
    step k b t = some b' → NoUnderflow k b t ∧ Balanced b'

/-- The condition on a step.  A read does not take more messages than the counter has room for.
There are no more commands than messages in flight; the socket takes all of them whole, and each is
a `FIN` or a `REQ` for a message received. -/
def Fair (b : Books) : Turn → Prop
  | .read bs => ∀ fs rest, b.conn.rBuf ++ bs = wire fs ++ rest →
      Parsed (b.conn.storage 1) fs rest → (∀ f ∈ fs, f.Readable ∧ f.Within bs.length) →
      b.conn.inFlight.toNat + fs.countP Frame.isMessage < 2 ^ 32
  | .messages cmds ws => cmds.length ≤ b.conn.inFlight.toNat ∧
      written b.conn.wBuf.bytes ws cmds = cmds ∧
      ∀ cmd ∈ cmds, cmd.settles b.conn.s = true

/-! ## One step -/

/-- The books of a client that was just started. -/
def start (config : Config) (alloc : Alloc) : Books := ⟨.new config [] alloc, 0⟩

theorem balanced_start (config : Config) (alloc : Alloc) : (start config alloc).Balanced := by
  simp [Balanced, start, Conn.new]

/-- What a step of `write_messages` does. -/
theorem step_messages {k : Stream} {b b' : Books} {cmds : List NsqCmd} {ws : ℕ → WriteResult}
    (h : step k b (.messages cmds ws) = some b') :
    Conn.writeEach k ws (cmds.map NsqCmd.asCmd) { b.load cmds with r := [] } = .ok b'.conn ∧
      b'.conn.s = b.conn.s ∧
      b'.settled = b.settled +
        (written b.conn.wBuf.bytes ws cmds).countP (NsqCmd.settles b.conn.s) := by
  simp only [step] at h
  split at h
  · rename_i c hwrite
    cases h
    refine ⟨hwrite, ?_, rfl⟩
    have hconn := (Conn.flushed_of_writeEach hwrite).conn
    rw [hconn]
    rfl
  · cases h

/-- No subtraction underflows exactly if there are no more commands than messages in flight. -/
theorem noUnderflow_iff {k : Stream} {b b' : Books} {cmds : List NsqCmd} {ws : ℕ → WriteResult}
    (h : step k b (.messages cmds ws) = some b') :
    NoUnderflow k b (.messages cmds ws) ↔ cmds.length ≤ b.conn.inFlight.toNat := by
  obtain ⟨hwrite, -, -⟩ := step_messages h
  have htake : ∀ n c, Conn.writeEach k ws ((cmds.take n).map NsqCmd.asCmd)
      { b.load cmds with r := [] } = .ok c → n ≤ cmds.length → n ≤ b.conn.inFlight.toNat →
      c.inFlight.toNat + n = b.conn.inFlight.toNat := by
    intro n c hc hn hle
    have hlength : ((cmds.take n).map NsqCmd.asCmd).length = n := by
      rw [List.length_map, List.length_take]
      omega
    have hlower := Conn.inFlight_of_writeEach hc (by rw [hlength]; exact hle)
    rwa [hlength] at hlower
  constructor
  · intro hfree
    by_contra hlt
    -- the pass that finds the counter at zero
    obtain ⟨c, hc⟩ := Conn.exists_writeEach_take hwrite b.conn.inFlight.toNat
    rw [← List.map_take] at hc
    have hpos := hfree b.conn.inFlight.toNat (by omega) c hc
    have hlower := htake _ c hc (by omega) (le_refl _)
    omega
  · intro hle n hn c hc
    have hlower := htake n c hc (by omega) (by omega)
    omega

/-- From books that balance, a step of `write_messages` is accounted for exactly if it is fair. -/
theorem messages_iff {k : Stream} {b b' : Books} {cmds : List NsqCmd} {ws : ℕ → WriteResult}
    (hb : b.Balanced) (h : step k b (.messages cmds ws) = some b') :
    NoUnderflow k b (.messages cmds ws) ∧ b'.Balanced ↔ b.Fair (.messages cmds ws) := by
  obtain ⟨hwrite, hs, hsettled⟩ := step_messages h
  have hsub := written_sublist b.conn.wBuf.bytes ws cmds
  have hcount := List.countP_le_length (p := NsqCmd.settles b.conn.s)
    (l := written b.conn.wBuf.bytes ws cmds)
  have hlength := hsub.length_le
  rw [noUnderflow_iff h]
  refine and_congr_right fun hle => ?_
  have hlower := Conn.inFlight_of_writeEach hwrite (by rw [List.length_map]; exact hle)
  rw [List.length_map, show ({ b.load cmds with r := [] } : Conn).inFlight = b.conn.inFlight from
    rfl] at hlower
  unfold Balanced at hb ⊢
  rw [hs, hsettled]
  constructor
  · intro hafter
    have hall : (written b.conn.wBuf.bytes ws cmds).countP (NsqCmd.settles b.conn.s) =
        cmds.length := by omega
    have hwhole : written b.conn.wBuf.bytes ws cmds = cmds := hsub.eq_of_length (by omega)
    refine ⟨hwhole, ?_⟩
    rw [hwhole] at hall
    exact List.countP_eq_length.mp hall
  · rintro ⟨hwhole, hsettle⟩
    rw [hwhole, List.countP_eq_length.mpr hsettle]
    omega

/-- So is a read. -/
theorem read_iff {k : Stream} {b b' : Books} {bs : List UInt8} (hb : b.Balanced)
    (h : step k b (.read bs) = some b') :
    NoUnderflow k b (.read bs) ∧ b'.Balanced ↔ b.Fair (.read bs) := by
  simp only [step] at h
  split at h
  · rename_i c hread
    cases h
    unfold Balanced at hb ⊢
    simp only [NoUnderflow, true_and, Fair]
    rcases Conn.fed_of_readOne hread with ⟨rfl, rfl⟩ | ⟨fs, hfed⟩
    · refine ⟨fun _ fs rest _ _ hfs => ?_, fun _ => hb⟩
      cases fs with
      | nil => exact b.conn.inFlight.toNat_lt
      | cons f fs =>
        have hwithin := (hfs f List.mem_cons_self).2
        rw [Frame.within_iff] at hwithin
        exact absurd hwithin.1 (by decide)
    · have hconn := hfed.conn
      rw [Conn.emitAll_eq] at hconn
      have hflight : c.inFlight.toNat =
          (b.conn.inFlight.toNat + fs.countP Frame.isMessage) % 2 ^ 32 := by
        have hbefore : (b.conn.receive k bs).inFlight = b.conn.inFlight := rfl
        rw [hconn]
        simp only [UInt32.toNat_add, UInt32.toNat_ofNat', hbefore]
        omega
      have hsent : c.s.length = b.conn.s.length + fs.countP Frame.isMessage := by
        have hbefore : (b.conn.receive k bs).s = b.conn.s := rfl
        rw [hconn]
        simp only [List.length_append, List.length_map, List.countP_eq_length_filter, hbefore]
      constructor
      · intro hafter gs rest hbytes hparsed hgs
        obtain ⟨hs, rfl, -⟩ := hfed.taken hbytes hparsed fun g hg => (hgs g hg).2
        rw [List.countP_append] at hflight hsent
        omega
      · intro hfair
        have hroom := hfair fs c.rBuf hfed.bytes hfed.parsed
          fun f hf => ⟨hfed.readable f hf, hfed.within f hf⟩
        omega
  · cases h

/-- From books that balance, a step is accounted for exactly if it is fair. -/
theorem step_iff {k : Stream} {b b' : Books} {t : Turn} (hb : b.Balanced)
    (h : step k b t = some b') : NoUnderflow k b t ∧ b'.Balanced ↔ b.Fair t := by
  cases t with
  | read bs => exact read_iff hb h
  | messages cmds ws => exact messages_iff hb h

/-! ## Runs -/

/-- Take any run of reads and of `write_messages`, with any bytes, any commands in the channel and
any results of the writes.  In every state of it the counter is the number of messages received
without those that are settled, and no subtraction underflows, if and only if every step is fair.

**Proof sketch.** By induction on the run the books balance before each step; and from books that
balance, a step is accounted for exactly if it is fair. -/
theorem accounted_iff (k : Stream) (config : Config) (alloc : Alloc) (turns : List Turn) :
    Accounted k (start config alloc) turns ↔
      ∀ pre t post b b', turns = pre ++ t :: post →
        Machine.Run (step k) Machine.anything (start config alloc) pre b →
        step k b t = some b' → b.Fair t := by
  constructor
  · intro hacc pre t post b b' hsplit hrun hstep
    have hb : b.Balanced := by
      rcases List.eq_nil_or_concat pre with rfl | ⟨pre', t', rfl⟩
      · rw [Machine.run_nil.mp hrun]
        exact balanced_start config alloc
      · rw [List.concat_eq_append] at hrun hsplit
        obtain ⟨b₁, hrun₁, -, hstep₁⟩ := Machine.run_concat.mp hrun
        exact (hacc pre' t' (t :: post) b₁ b (by rw [hsplit]; simp) hrun₁ hstep₁).2
    exact (step_iff hb hstep).mp (hacc pre t post b b' hsplit hrun hstep)
  · intro hfair pre t post b b' hsplit hrun hstep
    have hb : ∀ rest, turns = pre ++ rest → b.Balanced := by
      clear hsplit hstep
      induction hrun with
      | nil => exact fun _ _ => balanced_start config alloc
      | @snoc pre b₁ b₂ t' hrun₁ _ hstep₁ ih =>
        intro rest hrest
        have hsplit₁ : turns = pre ++ t' :: rest := by rw [hrest]; simp
        have hfair₁ := hfair pre t' rest b₁ b₂ hsplit₁ hrun₁ hstep₁
        exact ((step_iff (ih _ hsplit₁) hstep₁).mpr hfair₁).2
    exact (step_iff (hb _ hsplit) hstep).mpr (hfair pre t post b b' hsplit hrun hstep)

/-- A client that only publishes, and its first command: the counter is at `2 ^ 32 - 1`. -/
theorem not_accounted_pub :
    ¬ Accounted .plain (start (.default none) .exact)
      [.messages [.pub "t" [65]] fun _ => .ok 12] := by
  intro h
  have hstep := (h [] _ [] _ _ rfl .nil rfl).1 0 (by decide) _ rfl
  exact absurd hstep (by decide)

end Books

end NsqClient
