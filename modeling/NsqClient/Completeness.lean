import NsqClient.Conservation

set_option relaxedAutoImplicit false
set_option autoImplicit false

/-!
# When the decoder is complete

`decode` compares a frame with the size of the last read, not only with the bytes it holds.  So
a frame that is wholly there stays in the read buffer if the read that completed it was short.  If
a read ends in the last bytes of a frame, `decode` splits them off although they are not there: it
takes the frame without them, or it panics.  This file says exactly which cuttings of a stream of
frames into reads the decoder copes with.

## Main definitions

* `NsqClient.Conn.Covers`, `NsqClient.Conn.Fits`, `NsqClient.Conn.Cuts` — the conditions on one
  read: it is long enough for the frames it completes; it does not end where more is split off than
  there is; it does, and `decode` takes what there is.
* `NsqClient.Conn.Complete` — the decoder has taken every frame that is wholly there, and nothing
  else.
* `NsqClient.Conn.CaughtUp` — the invariant between reads that cover what they complete.

## Main results

* `NsqClient.Conn.CaughtUp.readOne_cases` — what a read does, by the conditions.
* `NsqClient.Conn.decode_complete_iff` — a cutting is decoded completely if and only if every
  read covers what it completes, up to the first one that panics.
-/

namespace NsqClient

namespace Conn

open CodeStream (whole Part)

/-! ## Conditions on a read -/

/-- The frames of a stream that a read of `size` bytes completes, after `before` bytes. -/
def completed (fs : List Frame) (before size : ℕ) : List Frame :=
  (whole Frame.wire fs (before + size)).drop (whole Frame.wire fs before).length

/-- The first frame of a stream that is not wholly there after `received` bytes. -/
def begun (fs : List Frame) (received : ℕ) : Option Frame :=
  fs[(whole Frame.wire fs received).length]?

/-- How much of it is there. -/
def begunLength (fs : List Frame) (received : ℕ) : ℕ :=
  received - (wire (whole Frame.wire fs received)).length

/-- The read is long enough for every frame it completes. -/
def Covers (fs : List Frame) (before size : ℕ) : Prop :=
  ∀ f ∈ completed fs before size, f.Within size

instance (fs : List Frame) (before size : ℕ) : Decidable (Covers fs before size) :=
  inferInstanceAs (Decidable (∀ f ∈ completed fs before size, f.Within size))

/-- The read does not end within the last bytes of a frame, where the rest of the frame would be
split off although it is not there. -/
def Fits (fs : List Frame) (before size : ℕ) : Prop :=
  ∀ f ∈ begun fs (before + size),
    ¬ (f.Within size ∧ f.Within (begunLength fs (before + size)))

/-- The read ends so, and `decode` takes what there is of the frame: the buffer has the capacity of
the rest, and what there is can be read. -/
def Cuts (st : Storage) (fs : List Frame) (before size : ℕ) : Prop :=
  ∃ f ∈ begun fs (before + size), f.Within size ∧ f.Within (begunLength fs (before + size)) ∧
    f.len - 4 ≤ st.capacity (begunLength fs (before + size) - 8) ∧
    (f.upTo (begunLength fs (before + size) - 8)).Readable

/-- No read of the sequence ends where more would be split off than there is. -/
def AllFit (fs : List Frame) (chunks : List (List UInt8)) : Prop :=
  ∀ pre bs post, chunks = pre ++ bs :: post → Fits fs pre.flatten.length bs.length

/-- The connection `c` has done with the frames that are wholly contained in the first `received`
bytes what it owes to them, the rest of these bytes is in its read buffer, and that does not start
with a complete frame. -/
def Complete (c₀ : Conn) (fs : List Frame) (received : ℕ) (c : Conn) : Prop :=
  Served c₀ (whole Frame.wire fs received) c ∧
    (wire fs).take received = wire (whole Frame.wire fs received) ++ c.rBuf ∧
    ¬ StartsWithFrame c.rBuf

theorem allFit_nil (fs : List Frame) : AllFit fs [] := by
  intro pre bs post h
  simp at h

/-- A sequence of reads fits if the reads before the last one do, and the last one does. -/
theorem allFit_concat {fs : List Frame} {chunks : List (List UInt8)} {bs : List UInt8} :
    AllFit fs (chunks ++ [bs]) ↔
      AllFit fs chunks ∧ Fits fs chunks.flatten.length bs.length := by
  constructor
  · intro h
    refine ⟨?_, h chunks bs [] rfl⟩
    intro pre bs' post hsplit
    apply h pre bs' (post ++ [bs])
    rw [hsplit, List.append_assoc, List.cons_append]
  · rintro ⟨hchunks, hbs⟩ pre bs' post hsplit
    rcases List.eq_nil_or_concat post with rfl | ⟨post', last, rfl⟩
    · obtain ⟨rfl, hlast⟩ := List.append_inj' hsplit rfl
      cases hlast
      exact hbs
    · rw [List.concat_eq_append, ← List.cons_append, ← List.append_assoc] at hsplit
      obtain ⟨hpre, -⟩ := List.append_inj' hsplit rfl
      exact hchunks pre bs' post' hpre

/-! ## The run of `decode` on a stream of frames -/

/-- A run of `decode` is its first pass, followed by the run from where that pass leads. -/
theorem decode_eq (size : ℕ) (c : Conn) : decode size c =
    match decodePass size c with
    | .ret c' => .ok c'
    | .next c' => decode size c'
    | .fail p => .error p := by
  have hbody : (decodeLoop size).body c = decodePass size c := rfl
  unfold decode
  rw [Loop.Measured.run_eq, hbody]
  cases decodePass size c with
  | ret c' => rfl
  | fail p => rfl
  | next c' => exact (decodeLoop size).run_congr _ _ c'

/-- Frames that `split_to` gives, can be read and are covered by the last read are taken one after
the other. -/
theorem decode_wire {size : ℕ} {c : Conn} (ms : List Frame) {rest : List UInt8}
    (hbuf : c.rBuf = wire ms ++ rest) (hparsed : Parsed (c.storage 0) ms rest)
    (hms : ∀ f ∈ ms, f.Readable ∧ f.Within size) :
    decode size c = decode size { c.emitAll ms with rBuf := rest } := by
  induction ms generalizing c with
  | nil =>
    have hrest : c = { c.emitAll [] with rBuf := rest } := by
      rw [← show c.rBuf = rest from hbuf]
      rfl
    rw [← hrest]
  | cons f ms ih =>
    obtain ⟨hread, hwithin⟩ := hms f List.mem_cons_self
    have hbuf' : c.rBuf = f.wire ++ (wire ms ++ rest) := by
      rw [hbuf, wire_cons, List.append_assoc]
    rw [decode_eq, decodePass_readable hbuf' hparsed.1 hwithin hread]
    simp only
    have hemit : (({ c with rBuf := wire ms ++ rest } : Conn).emit f).rBuf = wire ms ++ rest := by
      rw [emit_eq]
    have hstorage : (({ c with rBuf := wire ms ++ rest } : Conn).emit f).storage = c.storage := by
      rw [emit_eq]
    rw [ih hemit (by rw [hstorage]; exact hparsed.2) fun g hg => hms g (List.mem_cons_of_mem f hg),
      ← emitAll_cons, emitAll_rBuf]

/-- `decode` returns at a frame that the last read does not cover. -/
theorem decode_of_not_within {size : ℕ} {c : Conn} {f : Frame} {rest : List UInt8}
    (hbuf : c.rBuf = f.wire ++ rest) (hw : ¬ f.Within size) : decode size c = .ok c := by
  rw [decode_eq, decodePass_of_not_within hbuf hw]

/-- At a part of a frame `decode` returns, if the part is shorter than the size field says, or the
last read is. -/
theorem decode_part {size : ℕ} {c : Conn} {ts : List Frame} (hpart : Part Frame.wire ts c.rBuf)
    (hno : ∀ f ∈ ts.head?, ¬ (f.Within size ∧ f.Within c.rBuf.length)) :
    decode size c = .ok c := by
  rw [decode_eq]
  rcases hpart with hnil | ⟨f, ts', rfl, hpre, hlt⟩
  · rw [decodePass_nil hnil]
  · rw [decodePass_part hpre (hno f rfl)]

/-- If not, `decode` takes the part for a frame, if the buffer has the capacity of what is missing
and the part can be read; and it panics otherwise. -/
theorem decode_overrun {size : ℕ} {c : Conn} {f : Frame} (hpre : c.rBuf <+: f.wire)
    (hlt : c.rBuf.length < f.wire.length) (hf : f.Honest) (hw : f.Within size)
    (hw' : f.Within c.rBuf.length) :
    (f.len - 4 ≤ (c.storage 0).capacity (c.rBuf.length - 8) ∧
        (f.upTo (c.rBuf.length - 8)).Readable ∧
        ∃ c', decode size c = .ok c' ∧ c'.rBuf = []) ∨
      (¬ (f.len - 4 ≤ (c.storage 0).capacity (c.rBuf.length - 8) ∧
          (f.upTo (c.rBuf.length - 8)).Readable) ∧
        ∃ p, decode size c = .error p) := by
  have hlen := hw'.1
  have hheader : HEADER_LENGTH = 8 := rfl
  have hlength : (f.upTo (c.rBuf.length - 8)).payload.length = c.rBuf.length - 8 := by
    rw [f.length_wire] at hlt
    show (f.payload.take (c.rBuf.length - 8)).length = _
    rw [List.length_take]
    omega
  have hcut : (f.upTo (c.rBuf.length - 8)).Cut := by
    rw [f.length_wire] at hlt
    rw [Frame.within_iff] at hw'
    rw [Frame.Honest] at hf
    rw [Frame.Cut, hlength]
    show _ < f.len ∧ f.len ≤ _
    omega
  have hbuf : c.rBuf = (f.upTo (c.rBuf.length - 8)).wire ++ [] := by
    rw [List.append_nil, Frame.wire_upTo hpre (by omega)]
  rw [decode_eq]
  by_cases hcap : f.len - 4 ≤ (c.storage 0).capacity (c.rBuf.length - 8)
  · have hsplits : (f.upTo (c.rBuf.length - 8)).SplitsOff (c.storage 0) [] :=
      .inr ⟨hcut, rfl, by rw [hlength]; exact hcap⟩
    have hwithin : (f.upTo (c.rBuf.length - 8)).Within size := hw
    by_cases hread : (f.upTo (c.rBuf.length - 8)).Readable
    · have hempty :
          (({ c with rBuf := [] } : Conn).emit (f.upTo (c.rBuf.length - 8))).rBuf = [] := by
        rw [emit_eq]
      refine .inl ⟨hcap, hread, _, ?_, hempty⟩
      rw [decodePass_readable hbuf hsplits hwithin hread]
      simp only
      rw [decode_eq, decodePass_nil hempty]
    · refine .inr ⟨fun h => hread h.2, ?_⟩
      rw [decodePass_splitsOff hbuf hsplits hwithin, onFrame_of_not_readable hread]
      exact ⟨_, rfl⟩
  · refine .inr ⟨fun h => hcap h.1, ?_⟩
    rw [decodePass_part_panics hpre hw hw' (by rw [hf]; omega) (Nat.lt_of_not_le hcap)]
    exact ⟨_, rfl⟩

/-- Among frames that are not all covered there is a first one that is not. -/
theorem exists_first_not_within {ms : List Frame} {size : ℕ}
    (h : ¬ ∀ f ∈ ms, f.Within size) :
    ∃ ms₁ f ms₂, ms = ms₁ ++ f :: ms₂ ∧ (∀ g ∈ ms₁, g.Within size) ∧ ¬ f.Within size := by
  induction ms with
  | nil => exact absurd (by simp) h
  | cons f ms ih =>
    by_cases hf : f.Within size
    · have hms : ¬ ∀ g ∈ ms, g.Within size := fun hms => h (List.forall_mem_cons.mpr ⟨hf, hms⟩)
      obtain ⟨ms₁, g, ms₂, rfl, hms₁, hg⟩ := ih hms
      exact ⟨f :: ms₁, g, ms₂, rfl, List.forall_mem_cons.mpr ⟨hf, hms₁⟩, hg⟩
    · exact ⟨[], f, ms, rfl, by simp, hf⟩

/-! ## The invariant -/

/-- The decoder has taken the frames `gs` and holds a part of the first frame of `hs`. -/
structure CaughtUp (c₀ : Conn) (gs hs : List Frame) (received : List UInt8) (c : Conn) :
    Prop where
  bytes : received = wire gs ++ c.rBuf
  part : Part Frame.wire hs c.rBuf
  served : Served c₀ gs c

/-- The decoder of a connection with an empty read buffer has taken what is there. -/
theorem CaughtUp.start {c₀ : Conn} (h : c₀.rBuf = []) (hs : List Frame) :
    CaughtUp c₀ [] hs [] c₀ :=
  ⟨h.symm, .inl h, .start c₀⟩

/-- The frames taken are the ones wholly contained in the bytes received. -/
theorem CaughtUp.whole_eq {c₀ c : Conn} {gs hs : List Frame} {received : List UInt8}
    (h : CaughtUp c₀ gs hs received c) :
    whole Frame.wire (gs ++ hs) received.length = gs := by
  rw [h.bytes, List.length_append]
  exact CodeStream.whole_append_part Frame.wire_ne_nil gs h.part

/-- A decoder that holds a part of a frame is complete. -/
theorem CaughtUp.complete {c₀ c : Conn} {gs hs : List Frame} {received : List UInt8}
    (h : CaughtUp c₀ gs hs received c) (hhs : ∀ f ∈ hs, f.Spelled) :
    Complete c₀ (gs ++ hs) received.length c := by
  have hpre : received <+: wire (gs ++ hs) := by
    rw [h.bytes, wire_append, List.prefix_append_right_inj]
    rcases h.part with hnil | ⟨f, fs, rfl, hf, -⟩
    · rw [hnil]
      exact List.nil_prefix
    · rw [wire_cons]
      exact hf.trans (List.prefix_append _ _)
  rw [Complete, h.whole_eq, ← List.prefix_iff_eq_take.mp hpre]
  exact ⟨h.served, h.bytes, not_startsWithFrame_of_part hhs h.part⟩

/-- The conditions on a read that brings `bs`, by where the bytes end in the stream. -/
theorem conditions_eq {gs ms ts : List Frame} {received bs rest : List UInt8}
    (hgs : whole Frame.wire (gs ++ (ms ++ ts)) received.length = gs)
    (hbytes : received ++ bs = wire (gs ++ ms) ++ rest) (hpart : Part Frame.wire ts rest) :
    completed (gs ++ (ms ++ ts)) received.length bs.length = ms ∧
      begun (gs ++ (ms ++ ts)) (received.length + bs.length) = ts.head? ∧
      begunLength (gs ++ (ms ++ ts)) (received.length + bs.length) = rest.length := by
  have hlen : received.length + bs.length = (wire (gs ++ ms)).length + rest.length := by
    rw [← List.length_append, hbytes, List.length_append]
  have hwhole : whole Frame.wire (gs ++ (ms ++ ts)) (received.length + bs.length) = gs ++ ms := by
    rw [hlen, ← List.append_assoc]
    exact CodeStream.whole_append_part Frame.wire_ne_nil (gs ++ ms) hpart
  refine ⟨?_, ?_, ?_⟩
  · rw [completed, hwhole, hgs, List.drop_left]
  · rw [begun, hwhole, ← List.append_assoc, List.getElem?_append_right le_rfl, Nat.sub_self,
      List.head?_eq_getElem?]
  · rw [begunLength, hwhole, hlen, Nat.add_sub_cancel_left]

/-- A read that fits cuts no frame. -/
theorem Fits.not_cuts {st : Storage} {fs : List Frame} {before size : ℕ}
    (h : Fits fs before size) : ¬ Cuts st fs before size := by
  rintro ⟨f, hf, hw, hw', -⟩
  exact h f hf ⟨hw, hw'⟩

/-- Whether a read that ends within the last bytes of a frame cuts it is up to the capacity and to
what there is of the payload. -/
theorem cuts_iff {st : Storage} {fs : List Frame} {before size : ℕ} {f : Frame}
    (hf : f ∈ begun fs (before + size)) (hw : f.Within size)
    (hw' : f.Within (begunLength fs (before + size))) : Cuts st fs before size ↔
      f.len - 4 ≤ st.capacity (begunLength fs (before + size) - 8) ∧
        (f.upTo (begunLength fs (before + size) - 8)).Readable := by
  constructor
  · rintro ⟨g, hg, -, -, hcut⟩
    rw [Option.mem_unique hf hg]
    exact hcut
  · exact fun hcut => ⟨f, hf, hw, hw', hcut⟩

/-- What passes the guards with the first frame of a part is a beginning of that frame, and not all
of it. -/
theorem prefix_of_part {ts : List Frame} {rest : List UInt8} {f : Frame}
    (hpart : Part Frame.wire ts rest) (hf : f ∈ ts.head?) (hw : f.Within rest.length) :
    rest <+: f.wire ∧ rest.length < f.wire.length := by
  rcases hpart with rfl | ⟨g, ts', rfl, hg, hlt⟩
  · exact absurd hw.1 (by decide)
  · rw [List.head?_cons] at hf
    cases hf
    exact ⟨hg, hlt⟩

/-- If a part of a frame is there and the read buffer is empty, the decoder is not complete. -/
theorem not_complete_of_nil {c₀ c : Conn} {gs ts : List Frame} {received rest : List UInt8}
    (hpre : received <+: wire (gs ++ ts)) (hbytes : received = wire gs ++ rest)
    (hpart : Part Frame.wire ts rest) (hrest : rest ≠ []) (hempty : c.rBuf = []) :
    ¬ Complete c₀ (gs ++ ts) received.length c := by
  rintro ⟨-, hleft, -⟩
  have hwhole : whole Frame.wire (gs ++ ts) received.length = gs := by
    rw [hbytes, List.length_append]
    exact CodeStream.whole_append_part Frame.wire_ne_nil gs hpart
  rw [← List.prefix_iff_eq_take.mp hpre, hwhole, hempty, hbytes,
    List.append_cancel_left_eq] at hleft
  exact hrest hleft

/-- What a read does to a decoder that has taken what is there, by the conditions: it stays so, it
panics, or it is incomplete: it leaves a complete frame in the read buffer, or it takes a part for a
frame.

**Proof sketch.** The bytes received end in some frame: before it come the frames `ms` this read
completes, and a part of it stays in the buffer.  If every frame of `ms` is covered, `decode`
takes them all and comes to the part, where it returns, takes the part, or panics.  If not, it takes
those before the first one that is not covered, and returns there. -/
theorem CaughtUp.readOne_cases {k : Stream} {c₀ c : Conn} {gs hs : List Frame}
    {received bs : List UInt8} (h : CaughtUp c₀ gs hs received c)
    (hwf : ∀ f ∈ hs, f.WellFormed) (hbs : bs ≠ []) (hsize : bs.length ≤ isizeMax)
    (halloc : c.config.outputBufferSize.toNat ≤ isizeMax)
    (hpre : received ++ bs <+: wire (gs ++ hs)) :
    (Covers (gs ++ hs) received.length bs.length ∧ Fits (gs ++ hs) received.length bs.length ∧
      ∃ ms ts c', hs = ms ++ ts ∧ readOne k c bs = .ok c' ∧
        CaughtUp c₀ (gs ++ ms) ts (received ++ bs) c') ∨
    (Covers (gs ++ hs) received.length bs.length ∧
      ¬ Fits (gs ++ hs) received.length bs.length ∧
      ¬ Cuts (c.storage 1) (gs ++ hs) received.length bs.length ∧ ∃ p, readOne k c bs = .error p) ∨
    ((¬ Covers (gs ++ hs) received.length bs.length ∨
        Cuts (c.storage 1) (gs ++ hs) received.length bs.length) ∧
      ∃ c', readOne k c bs = .ok c' ∧ ¬ Complete c₀ (gs ++ hs) (received ++ bs).length c') := by
  have hpre' : c.rBuf ++ bs <+: wire hs := by
    rw [h.bytes, List.append_assoc, wire_append] at hpre
    exact (List.prefix_append_right_inj _).mp hpre
  obtain ⟨ms, ts, rest, rfl, hbuf, hpart⟩ := CodeStream.exists_part_of_prefix hpre'
  have hbytes : received ++ bs = wire (gs ++ ms) ++ rest := by
    rw [h.bytes, List.append_assoc, hbuf]
    simp
  obtain ⟨hcompleted, hbegun, hbegunLength⟩ := conditions_eq h.whole_eq hbytes hpart
  have hms : ∀ f ∈ ms, f.WellFormed := fun f hf => hwf f (List.mem_append_left ts hf)
  have hhonest : ∀ f ∈ ms ++ ts, f.Within bs.length → f.Honest :=
    fun f hf => (hwf f hf).spelled.honest_of_within hsize
  have hrbuf : (c.receive k bs).rBuf = wire ms ++ rest := hbuf
  rw [readOne_eq k halloc hbs]
  by_cases hcovers : Covers (gs ++ (ms ++ ts)) received.length bs.length
  · have hwithin : ∀ f ∈ ms, f.Within bs.length :=
      fun f hf => hcovers f (by rw [hcompleted]; exact hf)
    have hparsed : Parsed ((c.receive k bs).storage 0) ms rest :=
      .of_honest fun f hf => hhonest f (List.mem_append_left ts hf) (hwithin f hf)
    rw [decode_wire ms hrbuf hparsed fun f hf => ⟨(hms f hf).readable, hwithin f hf⟩]
    by_cases hfits : Fits (gs ++ (ms ++ ts)) received.length bs.length
    · have hno : ∀ f ∈ ts.head?, ¬ (f.Within bs.length ∧ f.Within rest.length) := by
        intro f hf hw
        rw [Fits, hbegun, hbegunLength] at hfits
        exact hfits f hf hw
      exact .inl ⟨hcovers, hfits, ms, ts, _, rfl, decode_part hpart hno, hbytes, hpart,
        (h.served.receive k bs).emitAll ms rest⟩
    · obtain ⟨f, hf, hw, hw'⟩ : ∃ f ∈ ts.head?, f.Within bs.length ∧ f.Within rest.length := by
        by_contra hno
        apply hfits
        rw [Fits, hbegun, hbegunLength]
        exact fun f hf hw => hno ⟨f, hf, hw⟩
      -- the read ends within the last bytes of `f`
      obtain ⟨hpref, hlt⟩ := prefix_of_part hpart hf hw'
      have hcuts : Cuts (c.storage 1) _ received.length bs.length ↔ _ :=
        cuts_iff (hbegun ▸ hf) hw (hbegunLength ▸ hw')
      rw [hbegunLength] at hcuts
      have hstorage : (({ (c.receive k bs).emitAll ms with rBuf := rest } : Conn)).storage 0 =
          c.storage 1 := by
        rw [emitAll_eq]
        rfl
      have hover := decode_overrun (c := { (c.receive k bs).emitAll ms with rBuf := rest }) hpref
        hlt (hhonest f (List.mem_append_right ms (List.mem_of_mem_head? hf)) hw) hw hw'
      rw [hstorage] at hover
      rcases hover with ⟨hcap, hread, c', hdecode, hempty⟩ | ⟨hnot, hpanic⟩
      · refine .inr (.inr ⟨.inr (hcuts.mpr ⟨hcap, hread⟩), c', hdecode, ?_⟩)
        rw [← List.append_assoc] at hpre ⊢
        refine not_complete_of_nil hpre hbytes hpart ?_ hempty
        rintro rfl
        exact absurd hw'.1 (by decide)
      · exact .inr (.inl ⟨hcovers, hfits, fun hcut => hnot (hcuts.mp hcut), hpanic⟩)
  · have hsome : ¬ ∀ f ∈ ms, f.Within bs.length := by
      rw [Covers, hcompleted] at hcovers
      exact hcovers
    obtain ⟨ms₁, f, ms₂, rfl, hms₁, hf⟩ := exists_first_not_within hsome
    have hmem : ∀ g ∈ ms₁, g ∈ ms₁ ++ f :: ms₂ := fun g hg => List.mem_append_left _ hg
    have hrbuf' : (c.receive k bs).rBuf = wire ms₁ ++ (f.wire ++ (wire ms₂ ++ rest)) := by
      rw [hrbuf, wire_append, wire_cons, List.append_assoc, List.append_assoc]
    have hspelled := (hms f (List.mem_append_right ms₁ List.mem_cons_self)).spelled
    have hparsed : Parsed ((c.receive k bs).storage 0) ms₁ (f.wire ++ (wire ms₂ ++ rest)) :=
      .of_honest fun g hg => hhonest g (List.mem_append_left ts (hmem g hg)) (hms₁ g hg)
    rw [decode_wire ms₁ hrbuf' hparsed fun g hg => ⟨(hms g (hmem g hg)).readable, hms₁ g hg⟩]
    refine .inr (.inr ⟨.inl hcovers, _, decode_of_not_within rfl hf, ?_⟩)
    rintro ⟨-, -, hstarts⟩
    exact hstarts ⟨f, hspelled, List.prefix_append _ _⟩

/-! ## Runs of reads -/

/-- The hypotheses on a run of reads: it brings a stream of well-formed frames to a connection
with an empty read buffer, cut into reads that are not empty and fit the vector they are read
into. -/
structure Cutting (c₀ : Conn) (fs : List Frame) (chunks : List (List UInt8)) : Prop where
  wellFormed : ∀ f ∈ fs, f.WellFormed
  rBuf : c₀.rBuf = []
  ne_nil : ∀ bs ∈ chunks, bs ≠ []
  length_le : ∀ bs ∈ chunks, bs.length ≤ c₀.config.outputBufferSize.toNat
  flatten_prefix : chunks.flatten <+: wire fs

/-- The reads of a cutting up to some point are a cutting. -/
theorem Cutting.of_prefix {c₀ : Conn} {fs : List Frame} {pre chunks : List (List UInt8)}
    (h : Cutting c₀ fs chunks) (hpre : pre <+: chunks) : Cutting c₀ fs pre := by
  obtain ⟨post, rfl⟩ := hpre
  refine ⟨h.wellFormed, h.rBuf, ?_, ?_, ?_⟩
  · intro bs hbs
    exact h.ne_nil bs (List.mem_append_left post hbs)
  · intro bs hbs
    exact h.length_le bs (List.mem_append_left post hbs)
  · have hflat := h.flatten_prefix
    rw [List.flatten_append] at hflat
    exact (List.prefix_append _ _).trans hflat

/-- Reads move on to later storage of the read buffer. -/
theorem storage_of_readAll {k : Stream} {c₀ c : Conn} {chunks : List (List UInt8)}
    (hne : ∀ bs ∈ chunks, bs ≠ []) (h : readAll k c₀ chunks = .ok c) (n : ℕ) :
    c.storage n = c₀.storage (chunks.length + n) := by
  induction chunks using List.reverseRecOn generalizing c n with
  | nil =>
    cases h
    simp
  | append_singleton chunks bs ih =>
    obtain ⟨c', hc', hone⟩ := readAll_concat_ok.mp h
    have hbefore := ih (fun b hb => hne b (List.mem_append_left _ hb)) hc' (n + 1)
    rcases readOne_ok hone with ⟨rfl, -⟩ | ⟨-, hdecode⟩
    · exact absurd rfl (hne [] (by simp))
    · rcases decode_terminates bs.length (c'.receive k bs) with ⟨u, hp, -, hr⟩ | ⟨u, p, -, -, hr⟩
      · rw [hdecode] at hr
        cases hr
        obtain ⟨fs, ht⟩ := exists_takes hp
        have hstorage : c.storage = (c'.receive k bs).storage := by rw [ht.same]
        rw [hstorage, List.length_append, List.length_singleton]
        show c'.storage (n + 1) = _
        rw [hbefore, Nat.add_right_comm, Nat.add_assoc]
      · rw [hdecode] at hr
        cases hr

/-- One more read of a cutting, by the conditions. -/
theorem Cutting.readOne_cases {k : Stream} {c₀ c : Conn} {fs gs hs : List Frame}
    {chunks : List (List UInt8)} {bs : List UInt8} (h : Cutting c₀ fs (chunks ++ [bs]))
    (halloc : c₀.config.outputBufferSize.toNat ≤ isizeMax) (hfs : fs = gs ++ hs)
    (hread : readAll k c₀ chunks = .ok c) (hc : CaughtUp c₀ gs hs chunks.flatten c) :
    (Covers fs chunks.flatten.length bs.length ∧ Fits fs chunks.flatten.length bs.length ∧
      ∃ gs' hs' c', fs = gs' ++ hs' ∧ readOne k c bs = .ok c' ∧
        CaughtUp c₀ gs' hs' (chunks ++ [bs]).flatten c') ∨
    (Covers fs chunks.flatten.length bs.length ∧ ¬ Fits fs chunks.flatten.length bs.length ∧
      ¬ Cuts (c₀.storage (chunks.length + 1)) fs chunks.flatten.length bs.length ∧
      ∃ p, readOne k c bs = .error p) ∨
    ((¬ Covers fs chunks.flatten.length bs.length ∨
        Cuts (c₀.storage (chunks.length + 1)) fs chunks.flatten.length bs.length) ∧
      ∃ c', readOne k c bs = .ok c' ∧ ¬ Complete c₀ fs (chunks ++ [bs]).flatten.length c') := by
  have hmem : bs ∈ chunks ++ [bs] := List.mem_append_right _ (List.mem_singleton_self bs)
  have hflat : (chunks ++ [bs]).flatten = chunks.flatten ++ bs := by simp
  have hconfig : c.config = c₀.config := by rw [hc.served.same]
  have hstorage : c.storage 1 = c₀.storage (chunks.length + 1) :=
    storage_of_readAll (fun b hb => h.ne_nil b (List.mem_append_left _ hb)) hread 1
  have hwf : ∀ f ∈ hs, f.WellFormed := by
    intro f hf
    refine h.wellFormed f ?_
    rw [hfs]
    exact List.mem_append_right gs hf
  have hpre := h.flatten_prefix
  rw [hflat, hfs] at hpre
  have hlen := h.length_le bs hmem
  subst hfs
  have hcases := hc.readOne_cases (k := k) hwf (h.ne_nil bs hmem) (hlen.trans halloc)
    (by rw [hconfig]; exact halloc) hpre
  rw [hstorage, ← hflat] at hcases
  rcases hcases with ⟨hcovers, hfits, ms, ts, c', rfl, hone, hc'⟩ | hpanic | hleft
  · refine .inl ⟨hcovers, hfits, gs ++ ms, ts, c', ?_, hone, hc'⟩
    rw [List.append_assoc]
  · exact .inr (.inl hpanic)
  · exact .inr (.inr hleft)

/-- If every read up to the first panic covers what it completes and cuts no frame, the decoder has
taken what is there after every sequence of reads that succeeds, and all of them fit. -/
theorem caughtUp_of_covers {k : Stream} {c₀ c : Conn} {fs : List Frame}
    {chunks : List (List UInt8)} (h : Cutting c₀ fs chunks)
    (halloc : c₀.config.outputBufferSize.toNat ≤ isizeMax)
    (hcovers : ∀ pre bs post, chunks = pre ++ bs :: post → AllFit fs pre →
      Covers fs pre.flatten.length bs.length ∧
        ¬ Cuts (c₀.storage (pre.length + 1)) fs pre.flatten.length bs.length)
    (hread : readAll k c₀ chunks = .ok c) :
    AllFit fs chunks ∧ ∃ gs hs, fs = gs ++ hs ∧ CaughtUp c₀ gs hs chunks.flatten c := by
  induction chunks using List.reverseRecOn generalizing c with
  | nil =>
    cases hread
    exact ⟨allFit_nil fs, [], fs, rfl, .start h.rBuf fs⟩
  | append_singleton chunks bs ih =>
    obtain ⟨c', hc', hone⟩ := readAll_concat_ok.mp hread
    have hcovers' : ∀ pre bs' post, chunks = pre ++ bs' :: post → AllFit fs pre →
        Covers fs pre.flatten.length bs'.length ∧
          ¬ Cuts (c₀.storage (pre.length + 1)) fs pre.flatten.length bs'.length := by
      intro pre bs' post hsplit
      apply hcovers pre bs' (post ++ [bs])
      rw [hsplit, List.append_assoc, List.cons_append]
    obtain ⟨hfit, gs, hs, hfs, hcaught⟩ := ih (h.of_prefix (List.prefix_append _ _)) hcovers' hc'
    obtain ⟨hlast, hlast'⟩ := hcovers chunks bs [] rfl hfit
    rcases h.readOne_cases (k := k) halloc hfs hc' hcaught with
      ⟨-, hfits, gs', hs', c'', hfs', hone', hc''⟩ | ⟨-, -, -, p, hpanic⟩ | ⟨hnot, -⟩
    · rw [hone] at hone'
      cases hone'
      exact ⟨allFit_concat.mpr ⟨hfit, hfits⟩, gs', hs', hfs', hc''⟩
    · rw [hone] at hpanic
      cases hpanic
    · exact absurd hnot (not_or.mpr ⟨fun hno => hno hlast, hlast'⟩)

/-- If the decoder is complete after every sequence of reads that succeeds, a sequence of reads that
all fit succeeds, and it has taken what is there afterwards. -/
theorem caughtUp_of_complete {k : Stream} {c₀ : Conn} {fs : List Frame}
    {chunks : List (List UInt8)} (h : Cutting c₀ fs chunks)
    (halloc : c₀.config.outputBufferSize.toNat ≤ isizeMax)
    (hcomplete : ∀ pre c, pre <+: chunks → readAll k c₀ pre = .ok c →
      Complete c₀ fs pre.flatten.length c)
    (hfit : AllFit fs chunks) :
    ∃ c gs hs, readAll k c₀ chunks = .ok c ∧ fs = gs ++ hs ∧
      CaughtUp c₀ gs hs chunks.flatten c := by
  induction chunks using List.reverseRecOn with
  | nil => exact ⟨c₀, [], fs, rfl, rfl, .start h.rBuf fs⟩
  | append_singleton chunks bs ih =>
    obtain ⟨hchunks, hbs⟩ := allFit_concat.mp hfit
    obtain ⟨c, gs, hs, hc, hfs, hcaught⟩ := ih (h.of_prefix (List.prefix_append _ _))
      (fun pre c hpre => hcomplete pre c (hpre.trans (List.prefix_append _ _))) hchunks
    rcases h.readOne_cases (k := k) halloc hfs hc hcaught with
      ⟨-, -, gs', hs', c', hfs', hone, hc'⟩ | ⟨-, hnot, -⟩ | ⟨-, c', hone, hincomplete⟩
    · exact ⟨c', gs', hs', readAll_concat_ok.mpr ⟨c, hc, hone⟩, hfs', hc'⟩
    · exact absurd hbs hnot
    · have hall := readAll_concat_ok.mpr ⟨c, hc, hone⟩
      exact absurd (hcomplete _ c' (List.prefix_refl _) hall) hincomplete

/-! ## Completeness -/

/-- After every sequence of reads that succeeds, the decoder is complete. -/
def AlwaysComplete (k : Stream) (c₀ : Conn) (fs : List Frame) (chunks : List (List UInt8)) :
    Prop :=
  ∀ pre c, pre <+: chunks → readAll k c₀ pre = .ok c → Complete c₀ fs pre.flatten.length c

/-- A read into a vector that cannot be allocated does not succeed. -/
theorem readAll_of_huge {k : Stream} {c c' : Conn} {chunks : List (List UInt8)}
    (h : isizeMax < c.config.outputBufferSize.toNat) (hread : readAll k c chunks = .ok c') :
    chunks = [] := by
  cases chunks with
  | nil => rfl
  | cons bs chunks =>
    simp only [readAll, List.foldlM_cons, readOne_of_huge k h bs] at hread
    cases hread

/-- No frame is wholly contained in no bytes. -/
theorem complete_start {c₀ : Conn} (h : c₀.rBuf = []) {fs : List Frame}
    (hfs : ∀ f ∈ fs, f.Spelled) : Complete c₀ fs 0 c₀ :=
  (CaughtUp.start h fs).complete hfs

/-- The cutting of a stream of well-formed frames into reads is decoded completely if and only
if every read, up to the first one that panics, is at least eight bytes long and at least as
long as the size field of each frame it completes says, and cuts no frame; or no read succeeds at
all, because the vector to read into is too large.  The stream decoded completely has the same
effect whatever the cutting.

**Proof sketch.** A read that covers what it completes, and fits, keeps the invariant
`CaughtUp`; one that does not cover what it completes leaves a complete frame in the buffer, and one
that cuts a frame leaves nothing of it.  So along reads that cover what they complete and cut
nothing the decoder is complete (`caughtUp_of_covers`), and along reads that fit the first one that
does not breaks completeness (`caughtUp_of_complete`). -/
theorem decode_complete_iff {k : Stream} {c₀ : Conn} {fs : List Frame}
    {chunks : List (List UInt8)} (h : Cutting c₀ fs chunks) :
    (AlwaysComplete k c₀ fs chunks ↔
      isizeMax < c₀.config.outputBufferSize.toNat ∨
      ∀ pre bs post, chunks = pre ++ bs :: post → AllFit fs pre →
        Covers fs pre.flatten.length bs.length ∧
          ¬ Cuts (c₀.storage (pre.length + 1)) fs pre.flatten.length bs.length) ∧
    ∀ (chunks' : List (List UInt8)) (c c' : Conn),
      AlwaysComplete k c₀ fs chunks → AlwaysComplete k c₀ fs chunks' →
      chunks.flatten = wire fs → chunks'.flatten = wire fs →
      readAll k c₀ chunks = .ok c → readAll k c₀ chunks' = .ok c' →
      (c.s.map BytesMsg.contents, c.responses, c.heartbeat, c.inFlight) =
        (c'.s.map BytesMsg.contents, c'.responses, c'.heartbeat, c'.inFlight) := by
  have hspelled : ∀ f ∈ fs, f.Spelled := fun f hf => (h.wellFormed f hf).spelled
  refine ⟨⟨?_, ?_⟩, ?_⟩
  · intro hcomplete
    by_cases hhuge : isizeMax < c₀.config.outputBufferSize.toNat
    · exact .inl hhuge
    · refine .inr ?_
      have halloc : c₀.config.outputBufferSize.toNat ≤ isizeMax := Nat.le_of_not_lt hhuge
      intro pre bs post hsplit hfit
      have hcat : chunks = (pre ++ [bs]) ++ post := by
        rw [hsplit, List.append_assoc, List.singleton_append]
      have hcut : Cutting c₀ fs (pre ++ [bs]) := h.of_prefix ⟨post, hcat.symm⟩
      have hpre : pre <+: chunks := ⟨bs :: post, hsplit.symm⟩
      obtain ⟨c, gs, hs, hc, hfs, hcaught⟩ :=
        caughtUp_of_complete (k := k) (h.of_prefix hpre) halloc
        (fun pre' c hpre' hc => hcomplete pre' c (hpre'.trans hpre) hc) hfit
      rcases hcut.readOne_cases (k := k) halloc hfs hc hcaught with
        ⟨hcovers, hfits, -⟩ | ⟨hcovers, -, hcuts, -⟩ | ⟨-, c', hone, hincomplete⟩
      · exact ⟨hcovers, hfits.not_cuts⟩
      · exact ⟨hcovers, hcuts⟩
      · have hall := readAll_concat_ok.mpr ⟨c, hc, hone⟩
        exact absurd (hcomplete _ c' ⟨post, hcat.symm⟩ hall) hincomplete
  · intro hcond pre c hpre hc
    by_cases hhuge : isizeMax < c₀.config.outputBufferSize.toNat
    · obtain rfl := readAll_of_huge hhuge hc
      cases hc
      exact complete_start h.rBuf hspelled
    · have hcovers := hcond.resolve_left hhuge
      obtain ⟨-, gs, hs, rfl, hcaught⟩ := caughtUp_of_covers (h.of_prefix hpre)
        (Nat.le_of_not_lt hhuge) (fun pre' bs post hsplit => by
          obtain ⟨rest, rfl⟩ := hpre
          apply hcovers pre' bs (post ++ rest)
          rw [hsplit, List.append_assoc, List.cons_append]) hc
      exact hcaught.complete fun f hf => hspelled f (List.mem_append_right gs hf)
  · intro chunks' c c' hcomplete hcomplete' hall hall' hc hc'
    obtain ⟨sent, hsent, hserved⟩ := (hcomplete chunks c (List.prefix_refl _) hc).1
    obtain ⟨sent', hsent', hserved'⟩ := (hcomplete' chunks' c' (List.prefix_refl _) hc').1
    rw [hall, CodeStream.whole_stream] at hsent hserved
    rw [hall', CodeStream.whole_stream] at hsent' hserved'
    rw [emitAll_eq] at hserved hserved'
    rw [hserved, hserved']
    simp only [List.map_append, hsent.map_contents, hsent'.map_contents]

/-- A connection that was just opened, and an `OK` in one read. -/
theorem decode_complete_iff_ok :
    AlwaysComplete .plain (.new (.default none) [] .inline)
      [.ofPayload 0 [79, 75]] [[0, 0, 0, 6, 0, 0, 0, 0, 79, 75]] := by
  have hcut : Cutting (.new (.default none) [] .inline) [.ofPayload 0 [79, 75]]
      [[0, 0, 0, 6, 0, 0, 0, 0, 79, 75]] := by
    refine ⟨?_, rfl, by decide, by decide, by decide⟩
    intro f hf
    obtain rfl := List.mem_singleton.mp hf
    exact ⟨by decide, .inl (by decide), fun _ => by decide⟩
  refine (decode_complete_iff hcut).1.mpr (.inr ?_)
  intro pre bs post hsplit _
  obtain ⟨rfl, rfl, rfl⟩ : pre = [] ∧ bs = [0, 0, 0, 6, 0, 0, 0, 0, 79, 75] ∧ post = [] := by
    cases pre with
    | nil => simpa [eq_comm] using hsplit
    | cons b pre => simp at hsplit
  have hfits : Fits [.ofPayload 0 [79, 75]] ([] : List (List UInt8)).flatten.length 10 := by
    rintro f hf
    cases hf
  exact ⟨by decide, hfits.not_cuts⟩

/-- An `OK` cut into six bytes and four stays in the read buffer.  Cut into eight and two it is
taken as an empty response, and its text stays in the buffer. -/
theorem decode_not_complete_short_read :
    Cutting (.new (.default none) [] .inline) [.ofPayload 0 [79, 75]]
      [[0, 0, 0, 6, 0, 0], [0, 0, 79, 75]] ∧
    ¬ AlwaysComplete .plain (.new (.default none) [] .inline) [.ofPayload 0 [79, 75]]
      [[0, 0, 0, 6, 0, 0], [0, 0, 79, 75]] ∧
    ∃ c, readAll .plain (.new (.default none) [] .inline) [[0, 0, 0, 6, 0, 0, 0, 0], [79, 75]] =
      .ok c ∧ c.responses = [.response ""] ∧ c.rBuf = [79, 75] := by
  refine ⟨?_, ?_, _, rfl, by decide, rfl⟩
  · refine ⟨?_, rfl, by decide, by decide, by decide⟩
    intro f hf
    obtain rfl := List.mem_singleton.mp hf
    exact ⟨by decide, .inl (by decide), fun _ => by decide⟩
  · intro h
    refine (h _ _ (List.prefix_refl _) rfl).2.2 ⟨.ofPayload 0 [79, 75], by decide, ?_⟩
    decide

end Conn

end NsqClient
