import NsqClient.Completeness

set_option relaxedAutoImplicit false
set_option autoImplicit false

/-!
# The decoder at a frame boundary

Where a frame should begin, `decode` compares the size field with the bytes it holds and with the
size of the last read, and then splits off the field, the type and the payload.  The size field
does not count itself, the test does; so the four guards let a frame pass of which up to four bytes
are missing, and `split_to` gives what there is of it, or panics if the buffer does not have the
capacity.  Nor do they exclude sizes below four, payloads that are not text, and sizes that no
read will ever reach.  This file says what happens at every boundary, for all bytes.

## Main definitions

* `NsqClient.Conn.frameSize`, `NsqClient.Conn.Attempts` — the size field, and the guards.
* `NsqClient.Conn.Boundary` — where a run of `decode` begins a pass.
* `NsqClient.Conn.TakesWhole`, `NsqClient.Conn.Cut` — a frame is only taken whole, and the buffers
  for which the guards let a part of a frame pass.
* `NsqClient.Conn.Blocked` — no later read will ever get anything off the buffer.
* `NsqClient.Conn.Benign` — what can be taken at every boundary is a frame that can be read, and the
  size field is one that a read can reach.

## Main results

* `NsqClient.Conn.decodePass_cases` — the outcomes of a pass.
* `NsqClient.Conn.Boundary.of_passes` — where the passes of a run begin.
* `NsqClient.Conn.takesWhole_iff` — frames are taken whole exactly if no boundary is cut.
* `NsqClient.Conn.blocked_iff` — when the decoder is blocked.
* `NsqClient.Conn.robust_iff` — reads neither panic nor block exactly if all of them are benign.
-/

namespace NsqClient

namespace Conn

/-! ## A pass -/

/-- What `decode` reads in the size field at the front of a buffer. -/
def frameSize (buf : List UInt8) : ℕ := asUsize (readI32 buf)

/-- The guards of `decode` let it take a frame off the buffer. -/
def Attempts (size : ℕ) (buf : List UInt8) : Prop :=
  HEADER_LENGTH ≤ size ∧ HEADER_LENGTH ≤ buf.length ∧
    frameSize buf ≤ size ∧ frameSize buf ≤ buf.length

instance (size : ℕ) (buf : List UInt8) : Decidable (Attempts size buf) :=
  inferInstanceAs (Decidable (_ ∧ _))

/-- The guards, as numbers. -/
theorem attempts_iff {size : ℕ} {buf : List UInt8} : Attempts size buf ↔
    8 ≤ size ∧ 8 ≤ buf.length ∧ frameSize buf ≤ size ∧ frameSize buf ≤ buf.length := Iff.rfl

/-- The size field at the front of a frame. -/
theorem frameSize_wire (f : Frame) (rest : List UInt8) : frameSize (f.wire ++ rest) = f.len :=
  Frame.readI32_of_prefix (List.prefix_refl _) (by rw [List.length_append, f.length_wire]; omega)

/-- Without the guards a pass returns. -/
theorem decodePass_of_not_attempts {size : ℕ} {c : Conn} (h : ¬ Attempts size c.rBuf) :
    decodePass size c = .ret c := by
  rw [attempts_iff, frameSize] at h
  rw [decodePass_eq, if_neg h]

/-- With the guards, and a size below four, the subtraction overflows. -/
theorem decodePass_of_small {size : ℕ} {c : Conn} (h : Attempts size c.rBuf)
    (hsmall : frameSize c.rBuf < 4) : decodePass size c = .fail (.subOverflow, c) := by
  rw [attempts_iff, frameSize] at h
  rw [frameSize] at hsmall
  rw [decodePass_eq, if_pos h, if_pos hsmall]

/-- With the guards, and without the capacity of the whole frame, `split_to` panics. -/
theorem decodePass_of_part {size : ℕ} {c : Conn} (h : Attempts size c.rBuf)
    (hsmall : 4 ≤ frameSize c.rBuf)
    (hcap : (c.storage 0).capacity (c.rBuf.length - 8) < frameSize c.rBuf - 4) :
    decodePass size c = .fail (.splitTo, c) := by
  rw [attempts_iff, frameSize] at h
  rw [frameSize] at hsmall hcap
  have hdrop : ((c.rBuf.drop 4).drop 4).length = c.rBuf.length - 8 := by
    simp only [List.length_drop]
    omega
  rw [decodePass_eq, if_pos h, if_neg (by omega),
    Handle.splitTo_eq_none (by rw [Handle.capacity, hdrop]; exact hcap)]

/-- With the guards and the capacity, a frame is taken, or all there is of it. -/
theorem exists_splitsOff_of_attempts {size : ℕ} {c : Conn} (h : Attempts size c.rBuf)
    (hsmall : 4 ≤ frameSize c.rBuf)
    (hcap : frameSize c.rBuf - 4 ≤ (c.storage 0).capacity (c.rBuf.length - 8)) :
    ∃ (f : Frame) (rest : List UInt8), f.SplitsOff (c.storage 0) rest ∧ f.Within size ∧
      c.rBuf = f.wire ++ rest := by
  rw [attempts_iff] at h
  have hdrop : ((c.rBuf.drop 4).drop 4).length = c.rBuf.length - 8 := by
    simp only [List.length_drop]
    omega
  have hsplit : ∃ pieces, Handle.splitTo ⟨(c.rBuf.drop 4).drop 4, c.storage 0⟩
      (frameSize c.rBuf - 4) = some pieces :=
    ⟨_, if_pos (by rw [Handle.capacity, hdrop]; exact hcap)⟩
  obtain ⟨pieces, hsplit⟩ := hsplit
  obtain ⟨f, rest, hf, hbuf⟩ := exists_splitsOff hsmall h.2.1 h.2.2.2 hsplit
  refine ⟨f, rest, hf, ?_, hbuf⟩
  rw [Frame.within_iff, ← frameSize_wire f rest, ← hbuf]
  exact ⟨h.1, h.2.2.1⟩

/-- The outcomes of a pass. -/
inductive PassOutcome (size : ℕ) (c : Conn) : Loop.Step (Panic × Conn) Conn → Prop where
  /-- The guards keep `decode` from taking anything. -/
  | waits : ¬ Attempts size c.rBuf → PassOutcome size c (.ret c)
  /-- A size below four. -/
  | small : Attempts size c.rBuf → frameSize c.rBuf < 4 →
      PassOutcome size c (.fail (.subOverflow, c))
  /-- A part of a frame, and no capacity for the rest. -/
  | part : Attempts size c.rBuf → 4 ≤ frameSize c.rBuf →
      (c.storage 0).capacity (c.rBuf.length - 8) < frameSize c.rBuf - 4 →
      PassOutcome size c (.fail (.splitTo, c))
  /-- A frame, or a part of one, that cannot be read. -/
  | garbled {f : Frame} {rest : List UInt8} : Attempts size c.rBuf →
      f.SplitsOff (c.storage 0) rest → c.rBuf = f.wire ++ rest → ¬ f.Readable →
      PassOutcome size c (.fail (.utf8, { c with rBuf := rest }))
  /-- A frame, or a part of one, that can be read. -/
  | frame {f : Frame} {rest : List UInt8} : Attempts size c.rBuf →
      f.SplitsOff (c.storage 0) rest → f.Within size → c.rBuf = f.wire ++ rest → f.Readable →
      PassOutcome size c (.next (({ c with rBuf := rest } : Conn).emit f))

/-- Every pass has one of these outcomes. -/
theorem decodePass_cases (size : ℕ) (c : Conn) : PassOutcome size c (decodePass size c) := by
  by_cases hattempts : Attempts size c.rBuf
  · rcases Nat.lt_or_ge (frameSize c.rBuf) 4 with hsmall | hsmall
    · rw [decodePass_of_small hattempts hsmall]
      exact .small hattempts hsmall
    · rcases Nat.lt_or_ge ((c.storage 0).capacity (c.rBuf.length - 8)) (frameSize c.rBuf - 4) with
        hcap | hcap
      · rw [decodePass_of_part hattempts hsmall hcap]
        exact .part hattempts hsmall hcap
      · obtain ⟨f, rest, hf, hwithin, hbuf⟩ := exists_splitsOff_of_attempts hattempts hsmall hcap
        by_cases hread : f.Readable
        · rw [decodePass_readable hbuf hf hwithin hread]
          exact .frame hattempts hf hwithin hbuf hread
        · rw [decodePass_splitsOff hbuf hf hwithin, onFrame_of_not_readable hread]
          exact .garbled hattempts hf hbuf hread
  · rw [decodePass_of_not_attempts hattempts]
    exact .waits hattempts

/-- With the guards a pass does not return. -/
theorem decodePass_ne_ret {size : ℕ} {c : Conn} (h : Attempts size c.rBuf) (c' : Conn) :
    decodePass size c ≠ .ret c' := by
  intro hret
  have hpass := decodePass_cases size c
  rw [hret] at hpass
  cases hpass with
  | waits hwaits => exact hwaits h

/-! ## The boundaries of a run -/

/-- The frames of a list can be taken by a run of `decode` after a read of `size` bytes. -/
def Takeable (size : ℕ) (fs : List Frame) : Prop :=
  ∀ f ∈ fs, f.Honest ∧ f.Readable ∧ f.Within size

/-- `Boundary size buf rest`: a run of `decode` that starts with `buf` begins a pass with
`rest`. -/
def Boundary (size : ℕ) (buf rest : List UInt8) : Prop :=
  ∃ fs, Takeable size fs ∧ buf = wire fs ++ rest

/-- Frames that can be taken are taken. -/
theorem passes_of_wire {size : ℕ} {c : Conn} {fs : List Frame} {rest : List UInt8}
    (hfs : Takeable size fs) (hbuf : c.rBuf = wire fs ++ rest) :
    Loop.Passes (decodePass size) c { c.emitAll fs with rBuf := rest } := by
  induction fs using List.reverseRecOn generalizing rest with
  | nil =>
    have hrest : c = { c.emitAll [] with rBuf := rest } := by
      rw [← show c.rBuf = rest from hbuf]
      rfl
    rw [← hrest]
    exact .start
  | append_singleton fs f ih =>
    obtain ⟨hhonest, hread, hwithin⟩ := hfs f (by simp)
    have hbuf' : c.rBuf = wire fs ++ (f.wire ++ rest) := by
      rw [hbuf, wire_append, List.append_assoc]
      simp
    have hpasses := ih (fun g hg => hfs g (List.mem_append_left _ hg)) hbuf'
    refine .next hpasses ?_
    rw [decodePass_readable rfl (.inl hhonest) hwithin hread, emitAll_append, emitAll_cons,
      emitAll_nil]
    simp only [emit_eq]

/-- At every boundary a pass begins. -/
theorem Boundary.exists_passes {size : ℕ} {c : Conn} {rest : List UInt8}
    (h : Boundary size c.rBuf rest) :
    ∃ u, Loop.Passes (decodePass size) c u ∧ u.rBuf = rest := by
  obtain ⟨fs, hfs, hbuf⟩ := h
  exact ⟨_, passes_of_wire hfs hbuf, rfl⟩

/-! ## Frames are taken whole -/

/-- In every pass of `decode` that begins with a size field of at least four, no bytes are split off
that are not there; what is taken is a whole frame, and has the effect of that frame; and if less
than a whole frame is there, `decode` returns and leaves it where it is. -/
def TakesWhole (size : ℕ) (c : Conn) : Prop :=
  ∀ u, Loop.Passes (decodePass size) c u → 4 ≤ frameSize u.rBuf →
    (∀ u', decodePass size u ≠ .fail (.splitTo, u')) ∧
    (∀ u', decodePass size u = .next u' → ∃ f : Frame, f.len = f.payload.length + 4 ∧
      u.rBuf = f.wire ++ u'.rBuf ∧ u' = ({ u with rBuf := u'.rBuf } : Conn).emit f) ∧
    (u.rBuf.length < 4 + frameSize u.rBuf → decodePass size u = .ret u)

/-- The guards let a part of a frame pass: it has all but one to four of its bytes. -/
def Cut (size : ℕ) (buf : List UInt8) : Prop :=
  8 ≤ size ∧ 8 ≤ buf.length ∧ 4 ≤ frameSize buf ∧ frameSize buf ≤ size ∧
    frameSize buf ≤ buf.length ∧ buf.length < 4 + frameSize buf

instance (size : ℕ) (buf : List UInt8) : Decidable (Cut size buf) :=
  inferInstanceAs (Decidable (_ ∧ _))

/-- With the guards, the cut is where a size of at least four exceeds what is there. -/
theorem cut_iff {size : ℕ} {buf : List UInt8} :
    Cut size buf ↔ Attempts size buf ∧ 4 ≤ frameSize buf ∧ buf.length < 4 + frameSize buf := by
  rw [attempts_iff, Cut]
  tauto

/-- What there is of a frame that `decode` takes without its last bytes is cut. -/
theorem cut_of_frame {size : ℕ} {f : Frame} (hf : f.Cut) (hw : f.Within size) :
    Cut size f.wire := by
  have hsize : frameSize f.wire = f.len := by
    have hwire := frameSize_wire f []
    rwa [List.append_nil] at hwire
  rw [Frame.Cut] at hf
  rw [Frame.within_iff] at hw
  rw [Cut, hsize, f.length_wire]
  omega

/-- Where a pass begins there is a boundary; or one of the passes before it took the rest of the
buffer at a boundary that is cut. -/
theorem Boundary.of_passes {size : ℕ} {c u : Conn} (h : Loop.Passes (decodePass size) c u) :
    Boundary size c.rBuf u.rBuf ∨
      u.rBuf = [] ∧ ∃ rest, Boundary size c.rBuf rest ∧ Cut size rest := by
  obtain ⟨fs, ht⟩ := exists_takes h
  rcases List.eq_nil_or_concat fs with rfl | ⟨gs, f, rfl⟩
  · exact .inl ⟨[], by simp [Takeable], ht.bytes⟩
  · rw [List.concat_eq_append] at ht
    have hbefore : Takeable size gs := fun g hg =>
      ⟨ht.parsed.honest_init g hg, ht.readable g (List.mem_append_left _ hg),
        ht.within g (List.mem_append_left _ hg)⟩
    have hbytes : c.rBuf = wire gs ++ (f.wire ++ u.rBuf) := by
      rw [ht.bytes, wire_append, List.append_assoc]
      simp
    have hwithin := ht.within f (by simp)
    rcases (Parsed.append_iff.mp ht.parsed).2.1 with hhonest | ⟨hcut, hnil, -⟩
    · refine .inl ⟨gs ++ [f], List.forall_mem_append.mpr ⟨hbefore, ?_⟩, ht.bytes⟩
      exact List.forall_mem_singleton.mpr ⟨hhonest, ht.readable f (by simp), hwithin⟩
    · have hnil : u.rBuf = [] := hnil
      rw [hnil, List.append_nil] at hbytes
      exact .inr ⟨hnil, f.wire, ⟨gs, hbefore, hbytes⟩, cut_of_frame hcut hwithin⟩

/-- For every content of the read buffer and every size of the last read: frames are taken whole if
and only if no boundary the run gets to is cut. -/
theorem takesWhole_iff (size : ℕ) (c : Conn) :
    TakesWhole size c ↔ ∀ rest, Boundary size c.rBuf rest → ¬ Cut size rest := by
  constructor
  · intro h rest hboundary hcut
    obtain ⟨u, hpasses, rfl⟩ := hboundary.exists_passes
    obtain ⟨hattempts, hfour, hpart⟩ := cut_iff.mp hcut
    exact decodePass_ne_ret hattempts u ((h u hpasses hfour).2.2 hpart)
  · intro h u hpasses hfour
    have hboundary : Boundary size c.rBuf u.rBuf :=
      (Boundary.of_passes hpasses).resolve_right fun ⟨_, rest, hrest, hcut⟩ => h rest hrest hcut
    have hcut := h u.rBuf hboundary
    rw [cut_iff] at hcut
    have hpass := decodePass_cases size u
    refine ⟨?_, ?_, ?_⟩
    · intro u' hfail
      rw [hfail] at hpass
      cases hpass with
      | part hattempts _ hcap =>
        have hle := (u.storage 0).le_capacity (u.rBuf.length - 8)
        rw [attempts_iff] at hattempts
        exact hcut ⟨hattempts, hfour, by omega⟩
    · intro u' hnext
      rw [hnext] at hpass
      generalize hstep : Loop.Step.next u' = x at hpass
      cases hpass with
      | @frame f rest hattempts hf _ hbuf _ =>
        cases hstep
        have hrest : (({ u with rBuf := rest } : Conn).emit f).rBuf = rest := by rw [emit_eq]
        refine ⟨f, hf.resolve_right ?_, by rw [hrest, hbuf], by rw [hrest]⟩
        rintro ⟨hshort, rfl, -⟩
        refine hcut ⟨hattempts, hfour, ?_⟩
        rw [hbuf, frameSize_wire, List.append_nil, f.length_wire]
        rw [Frame.Cut] at hshort
        omega
      | _ => cases hstep
    · intro hpart
      refine decodePass_of_not_attempts fun hattempts => hcut ⟨hattempts, hfour, hpart⟩

/-- The first eight bytes of an `OK`, in one read: six bytes follow the size field, of which two are
missing, and six is no more than eight.  From a buffer in the handle, which has room for more, an
empty response is taken and nothing is left; from one without free capacity `split_to` panics. -/
theorem not_takesWhole_ok :
    (∃ c, decode 8 { Conn.new (.default none) [] .inline with
        rBuf := [0, 0, 0, 6, 0, 0, 0, 0] } = .ok c ∧ c.responses = [.response ""] ∧ c.rBuf = []) ∧
    ¬ TakesWhole 8 { Conn.new (.default none) [] .inline with
      rBuf := [0, 0, 0, 6, 0, 0, 0, 0] } ∧
    (∃ c, decode 8 { Conn.new (.default none) [] .exact with
        rBuf := [0, 0, 0, 6, 0, 0, 0, 0] } = .error (.splitTo, c)) ∧
    ¬ TakesWhole 8 { Conn.new (.default none) [] .exact with
      rBuf := [0, 0, 0, 6, 0, 0, 0, 0] } := by
  refine ⟨⟨_, rfl, rfl, rfl⟩, fun h => ?_, ⟨_, rfl⟩, fun h => ?_⟩
  · exact decodePass_ne_ret (by decide) _ ((h _ .start (by decide)).2.2 (by decide))
  · exact decodePass_ne_ret (by decide) _ ((h _ .start (by decide)).2.2 (by decide))

/-! ## Sizes that no read reaches -/

/-- A size field is read as at most `n` exactly if it is not negative and at most `n`. -/
theorem asUsize_le_iff {i : Int32} {n : ℕ} (hn : n ≤ isizeMax) :
    asUsize i ≤ n ↔ 0 ≤ i.toInt ∧ i.toInt ≤ n := by
  have hlt := i.toInt_lt
  have hle := i.le_toInt
  rw [isizeMax] at hn
  rw [asUsize]
  omega

/-- Once a size field is there, what follows does not change it. -/
theorem frameSize_append {buf : List UInt8} (h : 4 ≤ buf.length) (rest : List UInt8) :
    frameSize (buf ++ rest) = frameSize buf := by
  rw [frameSize, frameSize, readI32, readI32, List.take_append_of_le_length h]

/-- A size field is at the front of the read buffer, and nothing is ever taken off it: whatever is
read later, as long as the vector to read into has room for it, goes to the buffer and stays
there. -/
def Blocked (k : Stream) (c : Conn) : Prop :=
  4 ≤ c.rBuf.length ∧
    ∀ chunks : List (List UInt8), (∀ bs ∈ chunks, bs.length ≤ c.config.outputBufferSize.toNat) →
      ∃ c', readAll k c chunks = .ok c' ∧ c'.rBuf = c.rBuf ++ chunks.flatten

/-- Without the guards `decode` returns. -/
theorem decode_of_not_attempts {size : ℕ} {c : Conn} (h : ¬ Attempts size c.rBuf) :
    decode size c = .ok c := by
  rw [decode_eq, decodePass_of_not_attempts h]

/-- Where `decode` returns, the guards keep it from taking anything. -/
theorem not_attempts_of_decode {size : ℕ} {c c' : Conn} (h : decode size c = .ok c') :
    ¬ Attempts size c'.rBuf := by
  rcases decode_terminates size c with ⟨u, -, hret, hr⟩ | ⟨u, p, -, -, hr⟩
  · rw [hr] at h
    cases h
    have hpass := decodePass_cases size c'
    rw [hret] at hpass
    cases hpass with
    | waits h => exact h
  · rw [hr] at h
    cases h

/-- Reads that cannot reach the size field are appended. -/
theorem readAll_of_beyond {k : Stream} {c : Conn} (hlen : 4 ≤ c.rBuf.length)
    (halloc : c.config.outputBufferSize.toNat ≤ isizeMax)
    (hbeyond : c.config.outputBufferSize.toNat < 8 ∨
      c.config.outputBufferSize.toNat < frameSize c.rBuf)
    {chunks : List (List UInt8)}
    (hchunks : ∀ bs ∈ chunks, bs.length ≤ c.config.outputBufferSize.toNat) :
    ∃ c', readAll k c chunks = .ok c' ∧ c'.rBuf = c.rBuf ++ chunks.flatten := by
  induction chunks generalizing c with
  | nil => exact ⟨c, rfl, by simp⟩
  | cons bs chunks ih =>
    have hbs := hchunks bs List.mem_cons_self
    have hrest : ∀ bs' ∈ chunks, bs'.length ≤ c.config.outputBufferSize.toNat :=
      fun bs' h => hchunks bs' (List.mem_cons_of_mem bs h)
    by_cases hnil : bs = []
    · subst hnil
      obtain ⟨c', hread, hbuf⟩ := ih hlen halloc hbeyond hrest
      refine ⟨c', ?_, by rw [hbuf]; simp⟩
      rw [readAll, List.foldlM_cons, readOne_nil k halloc]
      exact hread
    · have hfield := frameSize_append hlen bs
      have hwait : ¬ Attempts bs.length (c.receive k bs).rBuf := by
        rw [attempts_iff, show (c.receive k bs).rBuf = c.rBuf ++ bs from rfl, hfield]
        omega
      have hone : readOne k c bs = .ok (c.receive k bs) := by
        rw [readOne_eq k halloc hnil, decode_of_not_attempts hwait]
      obtain ⟨c', hread, hbuf⟩ := ih (c := c.receive k bs)
        (by rw [receive, List.length_append]; omega) halloc
        (by rw [show (c.receive k bs).rBuf = c.rBuf ++ bs from rfl, hfield]; exact hbeyond) hrest
      refine ⟨c', ?_, ?_⟩
      · rw [readAll, List.foldlM_cons, hone]
        exact hread
      · rw [hbuf, List.flatten_cons, ← List.append_assoc]
        rfl

/-- The decoder is blocked exactly if the vector to read into is shorter than a header, or shorter
than the size field says. -/
theorem blocked_iff {k : Stream} {c : Conn} (halloc : c.config.outputBufferSize.toNat ≤ isizeMax) :
    Blocked k c ↔ 4 ≤ c.rBuf.length ∧ (c.config.outputBufferSize.toNat < 8 ∨
      c.config.outputBufferSize.toNat < frameSize c.rBuf) := by
  constructor
  · rintro ⟨hlen, hall⟩
    refine ⟨hlen, ?_⟩
    by_contra hreach
    -- a read that is as long as the size field says, and no shorter than a header
    let bs : List UInt8 := List.replicate (max 8 (frameSize c.rBuf)) 0
    have hbs : bs.length = max 8 (frameSize c.rBuf) := List.length_replicate
    have hne : bs ≠ [] := by
      rw [← List.length_pos_iff]
      omega
    obtain ⟨c', hread, hbuf⟩ := hall [bs] (by
      intro bs' h
      rw [List.mem_singleton.mp h, hbs]
      omega)
    have hone : readAll k c [bs] = readOne k c bs := by
      rw [← List.nil_append [bs], readAll_concat]
      rfl
    rw [hone, readOne_eq k halloc hne] at hread
    apply not_attempts_of_decode hread
    rw [hbuf, List.flatten_singleton, attempts_iff, frameSize_append hlen, List.length_append]
    omega
  · rintro ⟨hlen, hbeyond⟩
    exact ⟨hlen, fun chunks hchunks => readAll_of_beyond hlen halloc hbeyond hchunks⟩

/-! ## Hostile bytes -/

/-- A read is survived: `decode` does not panic, and it is not blocked afterwards. -/
def Robust (k : Stream) (c : Conn) (bs : List UInt8) : Prop :=
  ∃ c', readOne k c bs = .ok c' ∧ ¬ Blocked k c'

/-- At every boundary a run of `decode` gets to: a size field that is there is not negative, and no
larger than a vector of `room` bytes to read into, which has room for a header; and if the guards
let `decode` take a frame, `split_to` gives one, or all there is of one, that can be read. -/
def Benign (st : Storage) (room size : ℕ) (buf : List UInt8) : Prop :=
  ∀ rest, Boundary size buf rest →
    (4 ≤ rest.length → 8 ≤ room ∧ 0 ≤ (readI32 rest).toInt ∧ (readI32 rest).toInt ≤ room) ∧
    (Attempts size rest → ∃ (f : Frame) (rest' : List UInt8), rest = f.wire ++ rest' ∧
      f.SplitsOff st rest' ∧ f.Readable)

/-- A run of `decode` may be looked at from any of its passes on. -/
theorem decode_of_passes {size : ℕ} {c u : Conn} (h : Loop.Passes (decodePass size) c u) :
    decode size c = decode size u := by
  induction h with
  | start => rfl
  | next _ hpass ih => rw [ih, decode_eq, hpass]

/-- Passes leave the configuration and the storage alone. -/
theorem config_of_passes {size : ℕ} {c u : Conn} (h : Loop.Passes (decodePass size) c u) :
    u.config = c.config ∧ u.storage = c.storage := by
  obtain ⟨fs, ht⟩ := exists_takes h
  rw [ht.same]
  exact ⟨rfl, rfl⟩

/-- Reads leave the configuration alone. -/
theorem config_of_readAll {k : Stream} {c₀ c : Conn} {chunks : List (List UInt8)}
    (h : readAll k c₀ chunks = .ok c) : c.config = c₀.config := by
  obtain ⟨fs, hfs⟩ := exists_conserved_of_readAll h
  rw [hfs.served.same]

/-- A read that is survived was benign. -/
theorem Robust.benign {k : Stream} {c : Conn} {bs : List UInt8} (h : Robust k c bs)
    (halloc : c.config.outputBufferSize.toNat ≤ isizeMax) (hbs : bs ≠ [])
    (hroom : bs.length ≤ c.config.outputBufferSize.toNat) :
    Benign (c.storage 1) c.config.outputBufferSize.toNat bs.length (c.rBuf ++ bs) := by
  obtain ⟨c', hread, hfree⟩ := h
  rw [readOne_eq k halloc hbs] at hread
  intro rest hboundary
  obtain ⟨u, hpasses, rfl⟩ := Boundary.exists_passes (c := c.receive k bs) hboundary
  obtain ⟨hconfig, hstorage⟩ := config_of_passes hpasses
  have hconfig : u.config = c.config := hconfig
  have hstorage : u.storage 0 = c.storage 1 := congrFun hstorage 0
  rw [decode_of_passes hpasses, decode_eq] at hread
  have hpass := decodePass_cases bs.length u
  generalize hstep : decodePass bs.length u = x at hpass hread
  cases hpass with
  | waits hwaits =>
    cases hread
    refine ⟨fun hlen => ?_, fun hattempts => absurd hattempts hwaits⟩
    rw [blocked_iff (by rw [hconfig]; exact halloc), hconfig] at hfree
    have hreach : asUsize (readI32 c'.rBuf) ≤ c.config.outputBufferSize.toNat := by
      rw [← frameSize]
      omega
    exact ⟨by omega, (asUsize_le_iff halloc).mp hreach⟩
  | small _ _ => cases hread
  | part _ _ _ => cases hread
  | garbled _ _ _ _ => cases hread
  | @frame f rest hattempts hf _ hbuf hreadable =>
    rw [hstorage] at hf
    rw [attempts_iff] at hattempts
    have hreach : asUsize (readI32 u.rBuf) ≤ c.config.outputBufferSize.toNat := by
      rw [← frameSize]
      omega
    exact ⟨fun _ => ⟨by omega, (asUsize_le_iff halloc).mp hreach⟩,
      fun _ => ⟨f, rest, hbuf, hf, hreadable⟩⟩

/-- A benign read is survived. -/
theorem Benign.robust {k : Stream} {c : Conn} {bs : List UInt8}
    (h : Benign (c.storage 1) c.config.outputBufferSize.toNat bs.length (c.rBuf ++ bs))
    (halloc : c.config.outputBufferSize.toNat ≤ isizeMax) (hbs : bs ≠ []) : Robust k c bs := by
  rw [Robust, readOne_eq k halloc hbs]
  -- at a cut boundary nothing is left, and there is nothing to take or to wait for
  have hat : ∀ {u : Conn}, Loop.Passes (decodePass bs.length) (c.receive k bs) u →
      (4 ≤ u.rBuf.length → 8 ≤ c.config.outputBufferSize.toNat ∧
        0 ≤ (readI32 u.rBuf).toInt ∧ (readI32 u.rBuf).toInt ≤ c.config.outputBufferSize.toNat) ∧
      (Attempts bs.length u.rBuf → ∃ (f : Frame) (rest' : List UInt8), u.rBuf = f.wire ++ rest' ∧
        f.SplitsOff (c.storage 1) rest' ∧ f.Readable) := by
    intro u hpasses
    rcases Boundary.of_passes hpasses with hboundary | ⟨hnil, -⟩
    · exact h u.rBuf hboundary
    · rw [hnil, attempts_iff]
      exact ⟨fun hlen => absurd hlen (by decide), fun hattempts => absurd hattempts.2.1 (by decide)⟩
  rcases decode_terminates bs.length (c.receive k bs) with
    ⟨u, hpasses, -, hr⟩ | ⟨u, p, hpasses, hfail, hr⟩
  · have hconfig : u.config = c.config := (config_of_passes hpasses).1
    refine ⟨u, hr, ?_⟩
    rw [blocked_iff (by rw [hconfig]; exact halloc), hconfig]
    rintro ⟨hlen, hbeyond⟩
    obtain ⟨hheader, hsigned⟩ := (hat hpasses).1 hlen
    have hreach := (asUsize_le_iff halloc).mpr hsigned
    rw [← frameSize] at hreach
    omega
  · have hbenign := (hat hpasses).2
    have hstorage : u.storage 0 = c.storage 1 := congrFun (config_of_passes hpasses).2 0
    have hpass := decodePass_cases bs.length u
    rw [hfail] at hpass
    cases hpass with
    | small hattempts hsmall =>
      obtain ⟨f, rest, hbuf, hf, -⟩ := hbenign hattempts
      have hbounds := hf.bounds
      rw [hbuf, frameSize_wire] at hsmall
      omega
    | part hattempts _ hcap =>
      obtain ⟨f, rest, hbuf, hf, -⟩ := hbenign hattempts
      rw [hstorage, hbuf, frameSize_wire, List.length_append, f.length_wire] at hcap
      rcases hf with hhonest | ⟨hcut, rfl, hfree⟩
      · have hle := (c.storage 1).le_capacity (f.payload.length + 8 + rest.length - 8)
        rw [Frame.Honest] at hhonest
        omega
      · rw [List.length_nil, Nat.add_zero, Nat.add_sub_cancel] at hcap
        omega
    | @garbled g rest hattempts hg hbuf hgarbled =>
      obtain ⟨f, rest', hbuf', hf, hread⟩ := hbenign hattempts
      obtain ⟨rfl, -⟩ := hg.inj hf (hbuf.symm.trans hbuf')
      exact absurd hread hgarbled

/-- For every sequence of bytes from the peer, cut into reads in any way, on any connection: no read
panics, and the decoder is blocked after none of them, if and only if every read is benign, and the
vector to read into can be allocated.

**Proof sketch.** Induction on the reads.  One read from the connection the others lead to is
survived exactly if it is benign: at the boundary where `decode` stops the guards keep it from
taking anything, now or, if the size field is beyond every read, ever; at the others a pass
panics or takes a frame. -/
theorem robust_iff (k : Stream) {c₀ : Conn} {chunks : List (List UInt8)}
    (hchunks : ∀ bs ∈ chunks, bs ≠ [] ∧ bs.length ≤ c₀.config.outputBufferSize.toNat) :
    (∀ pre, pre <+: chunks → ∃ c, readAll k c₀ pre = .ok c ∧ (pre ≠ [] → ¬ Blocked k c)) ↔
      ∀ pre bs post c, chunks = pre ++ bs :: post → readAll k c₀ pre = .ok c →
        c₀.config.outputBufferSize.toNat ≤ isizeMax ∧
        Benign (c.storage 1) c₀.config.outputBufferSize.toNat bs.length (c.rBuf ++ bs) := by
  constructor
  · intro h pre bs post c hsplit hc
    obtain ⟨hbs, hroom⟩ := hchunks bs (by rw [hsplit]; simp)
    have hconfig := config_of_readAll hc
    have hpre : pre ++ [bs] <+: chunks := ⟨post, by rw [hsplit]; simp⟩
    obtain ⟨c', hread, hfree⟩ := h _ hpre
    obtain ⟨c'', hc'', hone⟩ := readAll_concat_ok.mp hread
    rw [hc] at hc''
    cases hc''
    rw [← hconfig] at hroom ⊢
    have halloc : c.config.outputBufferSize.toNat ≤ isizeMax := by
      by_contra hhuge
      rw [readOne_of_huge k (by omega) bs] at hone
      cases hone
    exact ⟨halloc, Robust.benign ⟨c', hone, hfree (by simp)⟩ halloc hbs hroom⟩
  · intro h pre
    induction pre using List.reverseRecOn with
    | nil => exact fun _ => ⟨c₀, rfl, fun hne => absurd rfl hne⟩
    | append_singleton pre bs ih =>
      intro hpre
      obtain ⟨c, hc, -⟩ := ih ((List.prefix_append _ _).trans hpre)
      obtain ⟨post, hpost⟩ := hpre
      have hsplit : chunks = pre ++ bs :: post := by rw [← hpost]; simp
      obtain ⟨hbs, -⟩ := hchunks bs (by rw [hsplit]; simp)
      obtain ⟨halloc, hbenign⟩ := h pre bs post c hsplit hc
      rw [← config_of_readAll hc] at halloc hbenign
      obtain ⟨c', hone, hfree⟩ := hbenign.robust (k := k) halloc hbs
      exact ⟨c', readAll_concat_ok.mpr ⟨c, hc, hone⟩, fun _ => hfree⟩

/-- An `OK` in one read is benign. -/
theorem robust_iff_ok : Benign (.heap 0) 16384 10 [0, 0, 0, 6, 0, 0, 0, 0, 79, 75] := by
  have hchunks : ∀ bs ∈ [([0, 0, 0, 6, 0, 0, 0, 0, 79, 75] : List UInt8)], bs ≠ [] ∧ bs.length ≤
      (Conn.new (.default none) [] .exact).config.outputBufferSize.toNat := by decide
  refine ((robust_iff .plain hchunks).mp ?_ [] _ [] _ rfl rfl).2
  intro pre hpre
  rcases List.prefix_cons_iff.mp hpre with rfl | ⟨pre', rfl, htail⟩
  · exact ⟨_, rfl, fun h => absurd rfl h⟩
  · rw [List.prefix_nil.mp htail]
    exact ⟨_, rfl, fun _ h => absurd h.1 (by decide)⟩

/-- A size of three, a payload that is not text, and a size of minus one: the first two make
`decode` panic, and after the last it is blocked. -/
theorem not_robust_hostile :
    ¬ Robust .plain (.new (.default none) [] .inline) [0, 0, 0, 3, 0, 0, 0, 0] ∧
    ¬ Robust .plain (.new (.default none) [] .inline) [0, 0, 0, 5, 0, 0, 0, 0, 255] ∧
    ¬ Robust .plain (.new (.default none) [] .inline) [255, 255, 255, 255, 0, 0, 0, 0] := by
  refine ⟨?_, ?_, ?_⟩
  · rintro ⟨c, hread, -⟩
    cases hread
  · rintro ⟨c, hread, -⟩
    cases hread
  · rintro ⟨c, hread, hfree⟩
    cases hread
    exact hfree ((blocked_iff (by decide)).mpr ⟨by decide, .inr (by decide)⟩)

end Conn

end NsqClient
