import Mathlib.Data.List.Forall2
import NsqClient.Frame

set_option relaxedAutoImplicit false
set_option autoImplicit false

/-!
# The decoder loses nothing

Whatever bytes arrive, and however they are cut into reads: the frames taken so far, followed by
the read buffer, are the bytes received, and the connection has done with these frames what it
owes to them.  The invariant `Conn.Conserved` says so for a list of frames; a pass of `decode`
extends the list by one frame (`Conn.Conserved.pass`), and a read extends the bytes
(`Conn.Conserved.arrive`).  The last frame of a read may be without its last bytes.

## Main definitions

* `NsqClient.Conn.readAll` — a sequence of reads.
* `NsqClient.Conn.DecodePoint` — the points of such a run: between two reads, and between two
  passes of `decode`.
* `NsqClient.Conn.Conserved` — the invariant.

## Main results

* `NsqClient.Conn.emitAll_eq` — what a list of frames does to a connection, field by field.
* `NsqClient.Conn.decode_terminates` — `decode` always ends.
* `NsqClient.Conn.decode_conserves` — conservation at every point of every run.
-/

namespace NsqClient

namespace Conn

/-! ## The effect of a list of frames -/

@[simp] theorem emitAll_nil (c : Conn) : c.emitAll [] = c := rfl

@[simp] theorem emitAll_cons (c : Conn) (f : Frame) (fs : List Frame) :
    c.emitAll (f :: fs) = (c.emit f).emitAll fs := rfl

theorem emitAll_append (c : Conn) (fs gs : List Frame) :
    c.emitAll (fs ++ gs) = (c.emitAll fs).emitAll gs := List.foldl_append

/-- A message frame is not a reply. -/
theorem isReply_of_isMessage {f : Frame} (h : f.isMessage = true) : f.isReply = false := by
  have hk : f.kind = FRAME_TYPE_MESSAGE := by simpa [Frame.isMessage] using h
  simp [Frame.isReply, hk, show ¬ FRAME_TYPE_MESSAGE = FRAME_TYPE_RESPONSE by decide,
    show ¬ FRAME_TYPE_MESSAGE = FRAME_TYPE_ERROR by decide]

/-- A message frame answers no command. -/
theorem reply?_of_isMessage {f : Frame} (h : f.isMessage = true) : reply? f = none := by
  simp [reply?, isReply_of_isMessage h]

/-- A heartbeat answers no command. -/
theorem reply?_of_isHeartbeat {f : Frame} (h : f.isHeartbeat = true) : reply? f = none := by
  have hp : f.payload = Utf8.asBytes HEARTBEAT := by
    simp only [Frame.isHeartbeat, Bool.and_eq_true, decide_eq_true_eq] at h
    exact h.2
  have hr : f.isReply = false := by simp [Frame.isReply, hp]
  simp [reply?, hr]

/-- A message frame is not a heartbeat. -/
theorem isHeartbeat_of_isMessage {f : Frame} (h : f.isMessage = true) : f.isHeartbeat = false := by
  simp [Frame.isHeartbeat, h]

/-- What a frame does to a connection, field by field. -/
theorem emit_eq (c : Conn) (f : Frame) : c.emit f =
    { c with
      s := c.s ++ if f.isMessage then [f.msg c.msgTimeout (c.storage 0)] else []
      inFlight := c.inFlight + if f.isMessage then 1 else 0
      heartbeat := c.heartbeat || f.isHeartbeat
      responses := c.responses ++ (reply? f).toList } := by
  unfold emit
  by_cases hm : f.isMessage = true
  · simp [hm, reply?_of_isMessage, isHeartbeat_of_isMessage]
  · by_cases hb : f.isHeartbeat = true
    · simp [hm, hb, reply?_of_isHeartbeat]
    · simp [hm, hb]

/-- What a list of frames does to a connection, field by field. -/
theorem emitAll_eq (c : Conn) (fs : List Frame) : c.emitAll fs =
    { c with
      s := c.s ++ (fs.filter Frame.isMessage).map fun f => f.msg c.msgTimeout (c.storage 0)
      inFlight := c.inFlight + UInt32.ofNat (fs.countP Frame.isMessage)
      heartbeat := c.heartbeat || fs.any Frame.isHeartbeat
      responses := c.responses ++ fs.filterMap reply? } := by
  induction fs generalizing c with
  | nil => simp
  | cons f fs ih =>
    rw [emitAll_cons, ih, emit_eq]
    by_cases hm : f.isMessage = true
    · have hcount : c.inFlight + 1 + UInt32.ofNat (fs.countP Frame.isMessage) =
          c.inFlight + UInt32.ofNat (fs.countP Frame.isMessage + 1) := by
        rw [UInt32.ofNat_add, UInt32.add_assoc, UInt32.add_comm 1]
        rfl
      simp [hm, reply?_of_isMessage hm, isHeartbeat_of_isMessage hm, hcount]
    · cases hr : reply? f <;> simp [hm, hr, Bool.or_assoc]

/-- The bytes still to be decoded play no part in what a frame does. -/
theorem emitAll_rBuf (c : Conn) (fs : List Frame) (buf : List UInt8) :
    ({ c with rBuf := buf } : Conn).emitAll fs = { c.emitAll fs with rBuf := buf } := by
  simp only [emitAll_eq]

/-! ## Runs of reads -/

/-- A read that brings the given bytes. -/
def readOne (k : Stream) (c : Conn) (bs : List UInt8) : Except (Panic × Conn) Conn :=
  (·.2) <$> c.readTcp k (.ok bs)

/-- A sequence of reads, each of which brings the given bytes. -/
def readAll (k : Stream) (c : Conn) (chunks : List (List UInt8)) : Except (Panic × Conn) Conn :=
  chunks.foldlM (readOne k) c

/-- The points of a run of reads: after a number of reads, and where a pass of `decode` begins
during one more. -/
inductive DecodePoint (k : Stream) (c₀ : Conn) : List (List UInt8) → Conn → Prop where
  | rest {chunks : List (List UInt8)} {c : Conn} :
      readAll k c₀ chunks = .ok c → DecodePoint k c₀ chunks c
  | inside {chunks : List (List UInt8)} {bs : List UInt8} {c c' : Conn} :
      readAll k c₀ chunks = .ok c → Loop.Passes (decodePass bs.length) (c.receive k bs) c' →
      DecodePoint k c₀ (chunks ++ [bs]) c'

/-- A read into a vector that cannot be allocated. -/
theorem readOne_of_huge (k : Stream) {c : Conn}
    (hsize : isizeMax < c.config.outputBufferSize.toNat) (bs : List UInt8) :
    readOne k c bs = .error (.capacityOverflow, c) := by
  unfold readOne readTcp
  rw [if_pos hsize]
  rfl

/-- A read that brings nothing. -/
theorem readOne_nil (k : Stream) {c : Conn} (hsize : c.config.outputBufferSize.toNat ≤ isizeMax) :
    readOne k c [] = .ok c := by
  unfold readOne readTcp
  rw [if_neg (by omega)]
  rfl

/-- A read that brings bytes, into a vector that can be allocated, appends and decodes them. -/
theorem readOne_eq (k : Stream) {c : Conn} (hsize : c.config.outputBufferSize.toNat ≤ isizeMax)
    {bs : List UInt8} (h : bs ≠ []) : readOne k c bs = decode bs.length (c.receive k bs) := by
  unfold readOne readTcp
  rw [if_neg (by omega)]
  cases bs with
  | nil => exact absurd rfl h
  | cons b bs =>
    simp only
    cases decode (b :: bs).length (c.receive k (b :: bs)) <;> rfl

/-- These are all: the vector cannot be allocated, the read brings nothing, or what it brings is
appended and decoded. -/
theorem readOne_cases (k : Stream) (c : Conn) (bs : List UInt8) :
    (isizeMax < c.config.outputBufferSize.toNat ∧
        readOne k c bs = .error (.capacityOverflow, c)) ∨
      (c.config.outputBufferSize.toNat ≤ isizeMax ∧ bs = [] ∧ readOne k c bs = .ok c) ∨
      (c.config.outputBufferSize.toNat ≤ isizeMax ∧ bs ≠ [] ∧
        readOne k c bs = decode bs.length (c.receive k bs)) := by
  rcases Nat.lt_or_ge isizeMax c.config.outputBufferSize.toNat with hsize | hsize
  · exact .inl ⟨hsize, readOne_of_huge k hsize bs⟩
  · by_cases hbs : bs = []
    · subst hbs
      exact .inr (.inl ⟨hsize, rfl, readOne_nil k hsize⟩)
    · exact .inr (.inr ⟨hsize, hbs, readOne_eq k hsize hbs⟩)

/-- A read that succeeds: it brought nothing, or what it brought was appended and decoded. -/
theorem readOne_ok {k : Stream} {c c' : Conn} {bs : List UInt8} (h : readOne k c bs = .ok c') :
    bs = [] ∧ c' = c ∨ bs ≠ [] ∧ decode bs.length (c.receive k bs) = .ok c' := by
  rcases readOne_cases k c bs with ⟨-, hread⟩ | ⟨-, hbs, hread⟩ | ⟨-, hbs, hread⟩
  · rw [hread] at h
    cases h
  · rw [hread] at h
    cases h
    exact .inl ⟨hbs, rfl⟩
  · exact .inr ⟨hbs, hread ▸ h⟩

/-- No read at all. -/
@[simp] theorem readAll_nil (k : Stream) (c : Conn) : readAll k c [] = .ok c := rfl

/-- One more read. -/
theorem readAll_concat (k : Stream) (c : Conn) (chunks : List (List UInt8)) (bs : List UInt8) :
    readAll k c (chunks ++ [bs]) = readAll k c chunks >>= fun c' => readOne k c' bs := by
  simp only [readAll, List.foldlM_append, List.foldlM_cons, List.foldlM_nil, bind_pure]

/-- One more read that succeeds. -/
theorem readAll_concat_ok {k : Stream} {c c'' : Conn} {chunks : List (List UInt8)}
    {bs : List UInt8} : readAll k c (chunks ++ [bs]) = .ok c'' ↔
      ∃ c', readAll k c chunks = .ok c' ∧ readOne k c' bs = .ok c'' := by
  rw [readAll_concat]
  cases readAll k c chunks with
  | error e => simp [bind, Except.bind]
  | ok c' => simp [bind, Except.bind]

/-- `decode` always ends: by returning the connection in which a pass began, or by the panic of
one of its passes. -/
theorem decode_terminates (size : ℕ) (c : Conn) :
    (∃ u, Loop.Passes (decodePass size) c u ∧ decodePass size u = .ret u ∧
      decode size c = .ok u) ∨
    ∃ u p, Loop.Passes (decodePass size) c u ∧ decodePass size u = .fail p ∧
      decode size c = .error p := by
  rcases (decodeLoop size).run_cases (.spin, c) c with ⟨u, v, hp, hu, hr⟩ | ⟨u, e, hp, hu, hr⟩
  · cases eq_of_decodePass_ret hu
    exact .inl ⟨u, hp, hu, hr⟩
  · exact .inr ⟨u, e, hp, hu, hr⟩

/-! ## The invariant -/

/-- The messages `sent` are those of the message frames among `fs`, in order, each from some place
in memory. -/
def Sent (timeout : UInt64) (fs : List Frame) (sent : List BytesMsg) : Prop :=
  List.Forall₂ (fun f m => ∃ st, m = Frame.msg f timeout st) (fs.filter Frame.isMessage) sent

/-- The messages of one read. -/
theorem sent_map (timeout : UInt64) (st : Storage) (fs : List Frame) :
    Sent timeout fs ((fs.filter Frame.isMessage).map fun f => f.msg timeout st) := by
  rw [Sent, List.forall₂_map_right_iff]
  exact List.forall₂_same.mpr fun f _ => ⟨st, rfl⟩

theorem Sent.append {timeout : UInt64} {fs gs : List Frame} {sent sent' : List BytesMsg}
    (h : Sent timeout fs sent) (h' : Sent timeout gs sent') :
    Sent timeout (fs ++ gs) (sent ++ sent') := by
  rw [Sent, List.filter_append]
  exact List.rel_append h h'

/-- What the messages say. -/
theorem Sent.map_contents {timeout : UInt64} {fs : List Frame} {sent : List BytesMsg}
    (h : Sent timeout fs sent) :
    sent.map BytesMsg.contents = (fs.filter Frame.isMessage).map fun f => (timeout, f.payload) := by
  rw [Sent] at h
  generalize fs.filter Frame.isMessage = gs at h
  induction h with
  | nil => rfl
  | cons hm _ ih =>
    obtain ⟨st, rfl⟩ := hm
    rw [List.map_cons, List.map_cons, ih]
    rfl

/-- The connection `c` is `c₀` after it did with the frames `fs` what it owes to them, whatever
its read buffer holds. -/
def Served (c₀ : Conn) (fs : List Frame) (c : Conn) : Prop :=
  ∃ sent, Sent c₀.msgTimeout fs sent ∧
    c = { c₀.emitAll fs with
      s := c₀.s ++ sent, rBuf := c.rBuf, storage := c.storage, log := c.log }

theorem Served.start (c₀ : Conn) : Served c₀ [] c₀ :=
  ⟨[], .nil, by rw [List.append_nil]; rfl⟩

/-- To receive bytes is to serve no frame. -/
theorem Served.receive {c₀ c : Conn} {fs : List Frame} (h : Served c₀ fs c) (k : Stream)
    (bs : List UInt8) : Served c₀ fs (c.receive k bs) := by
  obtain ⟨sent, hsent, hc⟩ := h
  refine ⟨sent, hsent, ?_⟩
  conv_lhs => rw [Conn.receive, note, hc]
  rfl

/-- What serving frames leaves alone. -/
theorem Served.same {c₀ c : Conn} {fs : List Frame} (h : Served c₀ fs c) : c = { c₀ with
    rBuf := c.rBuf
    storage := c.storage
    s := c.s
    heartbeat := c.heartbeat
    responses := c.responses
    inFlight := c.inFlight
    log := c.log } := by
  obtain ⟨sent, -, hc⟩ := h
  rw [emitAll_eq] at hc
  rw [hc]

/-- More frames are served. -/
theorem Served.emitAll {c₀ c : Conn} {fs : List Frame} (h : Served c₀ fs c) (gs : List Frame)
    (rest : List UInt8) : Served c₀ (fs ++ gs) { c.emitAll gs with rBuf := rest } := by
  have htimeout : c.msgTimeout = c₀.msgTimeout := by rw [h.same]
  obtain ⟨sent, hsent, hc⟩ := h
  have hmore := sent_map c₀.msgTimeout (c.storage 0) gs
  refine ⟨_, hsent.append hmore, ?_⟩
  rw [emitAll_append, emitAll_eq c gs, htimeout]
  conv_lhs => rw [hc]
  simp only [emitAll_eq, List.append_assoc]

/-- The read buffer never has more capacity than contents: `split_to` past its end panics. -/
def Tight (c : Conn) : Prop := ∀ n, c.storage n = .heap 0

/-- The frames `fs` account for the bytes `received` by the connection `c₀`: they and the read
buffer of `c` are these bytes, and `c` is `c₀` after it did what it owes to `fs`. -/
structure Conserved (c₀ : Conn) (received : List UInt8) (fs : List Frame) (c : Conn) : Prop where
  bytes : c₀.rBuf ++ received = wire fs ++ c.rBuf
  honest : ∀ f ∈ fs, f.Honest ∨ f.Cut
  readable : ∀ f ∈ fs, f.Readable
  served : Served c₀ fs c
  /-- Without free capacity nothing is split off that is not there. -/
  tight : c₀.Tight → c.Tight ∧ ∀ f ∈ fs, f.Honest

/-- At first nothing is received, and nothing is accounted for. -/
theorem Conserved.start (c₀ : Conn) : Conserved c₀ [] [] c₀ :=
  ⟨by simp, by simp, by simp, .start c₀, fun h => ⟨h, by simp⟩⟩

/-- A read extends the bytes received. -/
theorem Conserved.arrive {c₀ c : Conn} {received : List UInt8} {fs : List Frame}
    (h : Conserved c₀ received fs c) (k : Stream) (bs : List UInt8) :
    Conserved c₀ (received ++ bs) fs (c.receive k bs) := by
  refine ⟨?_, h.honest, h.readable, h.served.receive k bs, fun ht => ⟨?_, (h.tight ht).2⟩⟩
  · rw [← List.append_assoc, h.bytes, List.append_assoc]
    rfl
  · exact fun n => (h.tight ht).1 (n + 1)

/-- A run of `decode` takes frames off the read buffer, all covered by the last read, and does with
them what it owes to them. -/
structure Takes (size : ℕ) (c : Conn) (fs : List Frame) (c' : Conn) : Prop where
  bytes : c.rBuf = wire fs ++ c'.rBuf
  parsed : Parsed (c.storage 0) fs c'.rBuf
  within : ∀ f ∈ fs, f.Within size
  readable : ∀ f ∈ fs, f.Readable
  conn : c' = { c.emitAll fs with rBuf := c'.rBuf }

/-- What taking frames leaves alone. -/
theorem Takes.same {size : ℕ} {c c' : Conn} {fs : List Frame} (h : Takes size c fs c') :
    c' = { c with
      rBuf := c'.rBuf
      s := c'.s
      heartbeat := c'.heartbeat
      responses := c'.responses
      inFlight := c'.inFlight } := by
  have hconn := h.conn
  rw [emitAll_eq] at hconn
  rw [hconn]

/-- A run of `decode` takes frames pass by pass.

**Proof sketch.** Induction on the passes.  The frame a pass takes follows those taken before; what
they left is not empty, so they were whole. -/
theorem exists_takes {size : ℕ} {c c' : Conn} (h : Loop.Passes (decodePass size) c c') :
    ∃ fs, Takes size c fs c' := by
  refine h.invariant (fun u => ∃ fs, Takes size c fs u) ?_
    ⟨[], rfl, trivial, by simp, by simp, rfl⟩
  rintro u v ⟨fs, hu⟩ hpass
  obtain ⟨f, rest, hbuf, hsplits, hwithin, hread, rfl⟩ := exists_frame_of_decodePass hpass
  have hstorage : u.storage = c.storage := by rw [hu.same]
  have hemit : (({ u with rBuf := rest } : Conn).emit f).rBuf = rest := by rw [emit_eq]
  refine ⟨fs ++ [f], ?_, ?_, ?_, ?_, ?_⟩
  · rw [hemit, hu.bytes, hbuf, wire_append]
    simp
  · have hone : wire [f] ++ rest = u.rBuf := by
      rw [hbuf]
      simp
    rw [hemit, Parsed.append_iff, hone]
    rw [hstorage] at hsplits
    exact ⟨hu.parsed, hsplits, trivial⟩
  · exact List.forall_mem_append.mpr ⟨hu.within, by simpa using hwithin⟩
  · exact List.forall_mem_append.mpr ⟨hu.readable, by simpa using hread⟩
  · have hconn := hu.conn
    rw [hemit, emitAll_append, emitAll_cons, emitAll_nil]
    conv_lhs => rw [hconn]
    simp only [emit_eq]

/-- What a run of `decode` takes is accounted for. -/
theorem Conserved.takes {c₀ c c' : Conn} {received : List UInt8} {fs gs : List Frame} {size : ℕ}
    (h : Conserved c₀ received fs c) (ht : Takes size c gs c') :
    Conserved c₀ received (fs ++ gs) c' := by
  refine ⟨?_, ?_, ?_, ?_, ?_⟩
  · rw [h.bytes, ht.bytes, wire_append, List.append_assoc]
  · exact List.forall_mem_append.mpr ⟨h.honest, ht.parsed.honest_or_cut⟩
  · exact List.forall_mem_append.mpr ⟨h.readable, ht.readable⟩
  · rw [ht.conn]
    exact h.served.emitAll gs c'.rBuf
  · intro htight
    obtain ⟨hc, hfs⟩ := h.tight htight
    have hgs := ht.parsed.honest_of_tight (hc 0)
    refine ⟨fun n => ?_, List.forall_mem_append.mpr ⟨hfs, hgs⟩⟩
    rw [ht.same]
    exact hc n

/-- The passes of a `decode` keep the account. -/
theorem Conserved.passes {c₀ c c' : Conn} {received : List UInt8} {fs : List Frame} {size : ℕ}
    (h : Conserved c₀ received fs c) (hp : Loop.Passes (decodePass size) c c') :
    ∃ gs, Takes size c gs c' ∧ Conserved c₀ received (fs ++ gs) c' := by
  obtain ⟨gs, ht⟩ := exists_takes hp
  exact ⟨gs, ht, h.takes ht⟩

/-- After a sequence of reads everything is accounted for.

**Proof sketch.** Induction on the reads.  A read that brings bytes first extends the bytes
received; the run of `decode` then keeps the account pass by pass, and it ends in a connection
in which a pass began. -/
theorem exists_conserved_of_readAll {k : Stream} {c₀ c : Conn} {chunks : List (List UInt8)}
    (h : readAll k c₀ chunks = .ok c) : ∃ fs, Conserved c₀ chunks.flatten fs c := by
  induction chunks using List.reverseRecOn generalizing c with
  | nil =>
    cases h
    exact ⟨[], Conserved.start c₀⟩
  | append_singleton chunks bs ih =>
    obtain ⟨c', hc', hone⟩ := readAll_concat_ok.mp h
    obtain ⟨fs, hfs⟩ := ih hc'
    rw [List.flatten_append, List.flatten_singleton]
    rcases readOne_ok hone with ⟨rfl, rfl⟩ | ⟨-, hone⟩
    · exact ⟨fs, by simpa using hfs⟩
    · rcases decode_terminates bs.length (c'.receive k bs) with ⟨u, hp, -, hr⟩ | ⟨u, p, -, -, hr⟩
      · rw [hr] at hone
        cases hone
        obtain ⟨gs, -, hgs⟩ := (hfs.arrive k bs).passes hp
        exact ⟨fs ++ gs, hgs⟩
      · rw [hr] at hone
        cases hone

/-- Every point of a run of reads is accounted for. -/
theorem exists_conserved {k : Stream} {c₀ c : Conn} {chunks : List (List UInt8)}
    (h : DecodePoint k c₀ chunks c) : ∃ fs, Conserved c₀ chunks.flatten fs c := by
  cases h with
  | rest h => exact exists_conserved_of_readAll h
  | inside h hp =>
    obtain ⟨fs, hfs⟩ := exists_conserved_of_readAll h
    rw [List.flatten_append, List.flatten_singleton]
    obtain ⟨gs, -, hgs⟩ := (hfs.arrive k _).passes hp
    exact ⟨fs ++ gs, hgs⟩

/-! ## Conservation -/

/-- What a frame does panics on a text only, and leaves the connection as it is. -/
theorem eq_of_onFrame_fail {frameType : Int32} {frame : Handle} {c c' : Conn} {p : Panic}
    (h : onFrame frameType frame c = .fail (p, c')) : p = .utf8 ∧ c' = c := by
  unfold onFrame at h
  split at h
  · cases h
  · split at h
    · cases h
      exact ⟨rfl, rfl⟩
    · split_ifs at h

/-- The panics of a pass, which leave all but the read buffer as it is. -/
theorem eq_of_decodePass_fail {size : ℕ} {c c' : Conn} {p : Panic}
    (h : decodePass size c = .fail (p, c')) :
    (p = .splitTo ∨ p = .subOverflow ∨ p = .utf8) ∧ c' = { c with rBuf := c'.rBuf } := by
  rw [decodePass_eq] at h
  split_ifs at h
  · cases h
    exact ⟨.inr (.inl rfl), rfl⟩
  · split at h
    · cases h
      exact ⟨.inl rfl, rfl⟩
    · obtain ⟨rfl, rfl⟩ := eq_of_onFrame_fail h
      exact ⟨.inr (.inr rfl), rfl⟩

/-- A response as it came: the frame type, and the bytes of the text. -/
def parts : Response → Int32 × List UInt8
  | .response s => (FRAME_TYPE_RESPONSE, Utf8.asBytes s)
  | .error s => (FRAME_TYPE_ERROR, Utf8.asBytes s)

/-- The responses pushed for a list of frames are the replies among them, in order, under the
right constructor. -/
theorem map_parts_filterMap_reply? {fs : List Frame} (h : ∀ f ∈ fs, f.Readable) :
    (fs.filterMap reply?).map parts =
      (fs.filter Frame.isReply).map fun f => (f.kind, f.payload) := by
  induction fs with
  | nil => rfl
  | cons f fs ih =>
    have ih := ih fun g hg => h g (List.mem_cons_of_mem f hg)
    by_cases hr : f.isReply = true
    · have hkind : f.kind = FRAME_TYPE_RESPONSE ∨ f.kind = FRAME_TYPE_ERROR := by
        simp only [Frame.isReply, Bool.and_eq_true, Bool.or_eq_true, decide_eq_true_eq] at hr
        exact hr.1
      have htext : ∃ s, Utf8.fromUtf8 f.payload = some s := by
        refine Option.isSome_iff_exists.mp ((h f List.mem_cons_self).resolve_left ?_)
        intro hm
        rw [isReply_of_isMessage hm] at hr
        cases hr
      obtain ⟨s, hs⟩ := htext
      have hb := Utf8.asBytes_of_fromUtf8 hs
      rcases hkind with hk | hk
      · simp [reply?, hr, hs, hk, parts, hb, ih]
      · simp [reply?, hr, hs, hk, parts, hb, ih,
          show ¬ FRAME_TYPE_ERROR = FRAME_TYPE_RESPONSE by decide]
    · simp [reply?, hr, ih]

/-- What `decode` leaves in the message channel, whether it returns or panics: the messages among
the frames it took. -/
theorem sent_of_decode {size : ℕ} {c c' : Conn}
    (h : decode size c = .ok c' ∨ ∃ p, decode size c = .error (p, c')) :
    ∃ fs rest, c.rBuf = wire fs ++ rest ∧ Parsed (c.storage 0) fs rest ∧
      (∀ f ∈ fs, f.Readable ∧ f.Within size) ∧
      c'.s = c.s ++ (fs.filter Frame.isMessage).map fun f => f.msg c.msgTimeout (c.storage 0) := by
  have hpasses : ∀ {u : Conn}, Loop.Passes (decodePass size) c u → c'.s = u.s →
      ∃ fs rest, c.rBuf = wire fs ++ rest ∧ Parsed (c.storage 0) fs rest ∧
        (∀ f ∈ fs, f.Readable ∧ f.Within size) ∧
        c'.s = c.s ++ (fs.filter Frame.isMessage).map
          fun f => f.msg c.msgTimeout (c.storage 0) := by
    intro u hp hsent
    obtain ⟨fs, ht⟩ := exists_takes hp
    refine ⟨fs, u.rBuf, ht.bytes, ht.parsed, fun f hf => ⟨ht.readable f hf, ht.within f hf⟩, ?_⟩
    rw [hsent, ht.conn, emitAll_eq]
  rcases decode_terminates size c with ⟨u, hp, -, hr⟩ | ⟨u, ⟨p, v⟩, hp, hu, hr⟩
  · rw [hr] at h
    rcases h with h | ⟨p, h⟩
    · cases h
      exact hpasses hp rfl
    · cases h
  · rw [hr] at h
    rcases h with h | ⟨q, h⟩
    · cases h
    · cases h
      exact hpasses hp (by rw [(eq_of_decodePass_fail hu).2])

/-- What reading the bytes `bs` forwards: the messages among the frames `decode` takes off the read
buffer. -/
def Forwards (bs : List UInt8) (c c' : Conn) : Prop :=
  ∃ fs rest, c.rBuf ++ bs = wire fs ++ rest ∧ Parsed (c.storage 1) fs rest ∧
    (∀ f ∈ fs, f.Readable ∧ f.Within bs.length) ∧
    c'.s = c.s ++ (fs.filter Frame.isMessage).map fun f => f.msg c.msgTimeout (c.storage 1)

/-- A read of the bytes `bs` gets to a frame: `decode` takes it, and everything before it. -/
def GetsTo (c : Conn) (bs : List UInt8) (f : Frame) : Prop :=
  ∃ gs rest, c.rBuf ++ bs = wire (gs ++ [f]) ++ rest ∧ Parsed (c.storage 1) (gs ++ [f]) rest ∧
    ∀ g ∈ gs ++ [f], g.Readable ∧ g.Within bs.length

/-- A read that brings nothing gets to nothing. -/
theorem not_getsTo_nil {c : Conn} {f : Frame} : ¬ c.GetsTo [] f := by
  rintro ⟨gs, rest, -, -, hall⟩
  have hwithin := (hall f (by simp)).2
  rw [Frame.within_iff] at hwithin
  exact absurd hwithin.1 (by decide)

/-- A read gets to every frame it takes. -/
theorem getsTo_of_mem {c : Conn} {bs rest : List UInt8} {fs : List Frame} {f : Frame}
    (hbuf : c.rBuf ++ bs = wire fs ++ rest) (hparsed : Parsed (c.storage 1) fs rest)
    (hall : ∀ g ∈ fs, g.Readable ∧ g.Within bs.length) (hf : f ∈ fs) : c.GetsTo bs f := by
  obtain ⟨gs, hs, rfl⟩ := List.append_of_mem hf
  have hsplit : gs ++ f :: hs = (gs ++ [f]) ++ hs := by simp
  rw [hsplit] at hbuf hparsed hall
  refine ⟨gs, wire hs ++ rest, ?_, (Parsed.append_iff.mp hparsed).1,
    fun g hg => hall g (List.mem_append_left _ hg)⟩
  rw [hbuf, wire_append, List.append_assoc]

/-- What is forwarded are messages the read gets to. -/
theorem Forwards.exists_sent {bs : List UInt8} {c c' : Conn} (h : Forwards bs c c') :
    ∃ sent, c'.s = c.s ++ sent ∧ ∀ m ∈ sent, ∃ f, c.GetsTo bs f ∧ f.isMessage = true ∧
      m = f.msg c.msgTimeout (c.storage 1) := by
  obtain ⟨fs, rest, hbuf, hparsed, hall, hs⟩ := h
  refine ⟨_, hs, fun m hm => ?_⟩
  obtain ⟨f, hf, rfl⟩ := List.mem_map.mp hm
  obtain ⟨hf, hmsg⟩ := List.mem_filter.mp hf
  exact ⟨f, getsTo_of_mem hbuf hparsed hall hf, hmsg, rfl⟩

theorem Forwards.nothing {bs : List UInt8} {c c' : Conn} (h : c'.s = c.s) : Forwards bs c c' :=
  ⟨[], c.rBuf ++ bs, rfl, trivial, by simp, by rw [h]; exact (List.append_nil _).symm⟩

/-- Conservation.  Take any bytes, cut into reads in any way, and any point of the run that is
reached without a panic.  From there `decode` ends, by returning or by one of its panics.  There
are frames, taken in order off the bytes received, the rest of which is the read buffer; the
messages sent are the payloads of the message frames, the responses pushed are the replies, the
heartbeat is noted if and only if it was before or one was among the frames, and the messages in
flight have grown by the number of message frames, as long as it stays below `2 ^ 32`.  Where
`split_to` past the end of the buffer panics, all frames are of the lengths their size fields say;
where there is capacity for what is missing, some may be without their last bytes. -/
theorem decode_conserves {k : Stream} {c₀ c : Conn} {chunks : List (List UInt8)}
    (h : DecodePoint k c₀ chunks c) :
    (∀ size : ℕ, (∃ c', decode size c = .ok c') ∨
      ∃ p c', decode size c = .error (p, c') ∧ (p = .splitTo ∨ p = .subOverflow ∨ p = .utf8)) ∧
    ∃ fs : List Frame,
      c₀.rBuf ++ chunks.flatten = wire fs ++ c.rBuf ∧
      (c₀.Tight → ∀ f ∈ fs, f.len = f.payload.length + 4) ∧
      (∀ f ∈ fs, f.len = f.payload.length + 4 ∨ f.Cut) ∧
      c.s.map BytesMsg.contents = c₀.s.map BytesMsg.contents ++
        (fs.filter Frame.isMessage).map (fun f => (c₀.msgTimeout, f.payload)) ∧
      c.responses.map parts = c₀.responses.map parts ++
        (fs.filter Frame.isReply).map (fun f => (f.kind, f.payload)) ∧
      (c.heartbeat = true ↔ c₀.heartbeat = true ∨ ∃ f ∈ fs, f.isHeartbeat = true) ∧
      (c₀.inFlight.toNat + fs.countP Frame.isMessage < 2 ^ 32 →
        c.inFlight.toNat = c₀.inFlight.toNat + fs.countP Frame.isMessage) := by
  constructor
  · intro size
    rcases decode_terminates size c with ⟨u, -, -, hr⟩ | ⟨u, ⟨p, c'⟩, -, hu, hr⟩
    · exact .inl ⟨u, hr⟩
    · exact .inr ⟨p, c', hr, (eq_of_decodePass_fail hu).1⟩
  · obtain ⟨fs, hbytes, hhonest, hread, ⟨sent, hsent, hstate⟩, htight⟩ := exists_conserved h
    rw [emitAll_eq] at hstate
    refine ⟨fs, hbytes, fun ht => (htight ht).2, hhonest, ?_, ?_, ?_, ?_⟩
    · rw [hstate, List.map_append, hsent.map_contents]
    · rw [hstate, List.map_append, map_parts_filterMap_reply? hread]
    · rw [hstate]
      simp
    · intro hlt
      rw [hstate]
      simp only [UInt32.toNat_add, UInt32.toNat_ofNat']
      omega

/-- Two reads of a fresh connection that bring a heartbeat and an `OK`, cut inside the
heartbeat. -/
theorem decode_conserves_heartbeat_ok :
    ∃ c fs, readAll .plain (.new (.default none) [] .exact)
        [[0, 0, 0, 15, 0, 0, 0, 0, 95, 104, 101, 97, 114],
          [116, 98, 101, 97, 116, 95, 0, 0, 0, 6, 0, 0, 0, 0, 79, 75]] = .ok c ∧
      [0, 0, 0, 15, 0, 0, 0, 0, 95, 104, 101, 97, 114, 116, 98, 101, 97, 116, 95, 0, 0, 0, 6, 0,
        0, 0, 0, 79, 75] = wire fs ++ c.rBuf ∧
      c.responses.map parts = (fs.filter Frame.isReply).map (fun f => (f.kind, f.payload)) ∧
      c.responses = [.response "OK"] ∧ c.heartbeat = true := by
  have hpoint : DecodePoint .plain (.new (.default none) [] .exact)
      [[0, 0, 0, 15, 0, 0, 0, 0, 95, 104, 101, 97, 114],
        [116, 98, 101, 97, 116, 95, 0, 0, 0, 6, 0, 0, 0, 0, 79, 75]] _ := .rest rfl
  obtain ⟨-, fs, hbytes, -, -, -, hresponses, -⟩ := decode_conserves hpoint
  exact ⟨_, fs, rfl, hbytes, hresponses, by decide, by decide⟩

end Conn

end NsqClient
