import NsqClient.CommandParser
import NsqClient.Sizes

set_option relaxedAutoImplicit false
set_option autoImplicit false

/-!
# The multiple publish

A multiple publish is a line, and a body behind its size: a count, and each message behind its
length.  This file states the parser of that form, shows that it reads back what `write_mmsg`
appends, and determines for which lists of messages `write_cmd` writes it.

## Main definitions

* `NsqClient.readMmsg`, `NsqClient.parseMpub` — the parser of the server.
* `NsqClient.WriterCall` — the calls of the four writers.
* `NsqClient.mpubBytes`, `NsqClient.Conn.WritesMpub` — the form, and that `write_cmd` writes it.

## Main results

* `NsqClient.readMmsg_mmsgBytes` — what `write_mmsg` appends is read back.
* `NsqClient.writers_exact` — the writers find their capacity, and append as much as they reserve.
* `NsqClient.Conn.writesMpub_iff` — `write_cmd` writes the form for two messages and more.
-/

namespace NsqClient

/-! ## The parser -/

/-- Read a number of bodies. -/
def readBodies : ℕ → List UInt8 → Option (List (List UInt8) × List UInt8)
  | 0, bs => some ([], bs)
  | n + 1, bs => do
    let (body, rest) ← readBody bs
    let (bodies, rest) ← readBodies n rest
    pure (body :: bodies, rest)

/-- The body of a multiple publish: a size and as many bytes, which are a count of four bytes and
as many bodies, and nothing more. -/
def readMmsg (bs : List UInt8) : Option (List (List UInt8) × List UInt8) := do
  let (block, rest) ← readBody bs
  let (bodies, left) ← readBodies (BigEndian.decode (block.take 4)) (block.drop 4)
  if 4 ≤ block.length ∧ left = [] then some (bodies, rest) else none

/-- A multiple publish off the front of the input. -/
def parseMpub (bs : List UInt8) : Option ((String × List (List UInt8)) × List UInt8) := do
  let (line, rest) ← readLine bs
  let words ← (line.splitOn 32).mapM Utf8.fromUtf8
  match words with
  | ["MPUB", topic] => (readMmsg rest).map fun (bodies, rest) => ((topic, bodies), rest)
  | _ => none

/-- Bodies are read back one after the other. -/
theorem readBodies_append {msgs : List (List UInt8)} (h : ∀ m ∈ msgs, m.length < 2 ^ 32)
    (rest : List UInt8) :
    readBodies msgs.length (msgs.flatMap bodyBytes ++ rest) = some (msgs, rest) := by
  induction msgs with
  | nil => rfl
  | cons m msgs ih =>
    have ih := ih fun m' hm' => h m' (List.mem_cons_of_mem m hm')
    rw [List.length_cons, List.flatMap_cons, List.append_assoc, readBodies,
      readBody_append (h m List.mem_cons_self)]
    simp only [Option.bind_eq_bind, Option.bind_some, ih]
    rfl

/-- The count and the bodies of a multiple publish. -/
def mmsgBlock (msgs : List (List UInt8)) : List UInt8 :=
  BigEndian.encode 4 msgs.length ++ msgs.flatMap bodyBytes

/-- They are as long as the exact size says. -/
theorem length_mmsgBlock (msgs : List (List UInt8)) :
    (mmsgBlock msgs).length = mmsgSize msgs := by
  rw [mmsgBlock, List.length_append, BigEndian.length_encode, ← length_flatMap_bodyBytes,
    Nat.add_comm]

/-- Below `2 ^ 31` bytes, `write_mmsg` appends the count and the bodies behind their length. -/
theorem mmsgBytes_eq {msgs : List (List UInt8)} (h : mmsgSize msgs < 2 ^ 31) :
    mmsgBytes msgs = bodyBytes (mmsgBlock msgs) := by
  rw [mmsgBytes, asUsize_mmsgBodySize_of_lt h, bodyBytes, length_mmsgBlock, mmsgBlock]

/-- What `write_mmsg` appends is read back, whatever follows. -/
theorem readMmsg_mmsgBytes {msgs : List (List UInt8)} (h : mmsgSize msgs < 2 ^ 31)
    (rest : List UInt8) : readMmsg (mmsgBytes msgs ++ rest) = some (msgs, rest) := by
  have hblock := length_mmsgBlock msgs
  have hcount := le_mmsgSize msgs
  have hlengths : ∀ m ∈ msgs, m.length < 2 ^ 32 := by
    intro m hm
    have := length_lt_mmsgSize hm
    omega
  have hdecode : BigEndian.decode ((mmsgBlock msgs).take 4) = msgs.length := by
    rw [mmsgBlock, List.take_left' (BigEndian.length_encode 4 _)]
    exact BigEndian.decode_encode_of_lt (by norm_num; omega)
  have hdrop : (mmsgBlock msgs).drop 4 = msgs.flatMap bodyBytes ++ [] := by
    rw [mmsgBlock, List.drop_left' (BigEndian.length_encode 4 _), List.append_nil]
  rw [mmsgBytes_eq h, readMmsg, readBody_append (by omega)]
  simp only [Option.bind_eq_bind, Option.bind_some, hdecode, hdrop, readBodies_append hlengths]
  rw [if_pos ⟨by omega, trivial⟩]

/-! ## The writers -/

/-- A call of one of the four writers. -/
inductive WriterCall where
  | magic (text : String)
  | cmd (line : String)
  | msg (body : List UInt8)
  | mmsg (bodies : List (List UInt8))

namespace WriterCall

/-- What a call does with the buffer. -/
def run (buf : BytesMut) : WriterCall → Except Panic BytesMut
  | magic text => .ok (writeMagic buf text)
  | cmd line => writeCmd buf line
  | msg body => writeMsg buf body
  | mmsg bodies => writeMmsg buf bodies

/-- How many bytes a call reserves. -/
def reserved : WriterCall → ℕ
  | magic text => (Utf8.asBytes text).length
  | cmd line => (Utf8.asBytes line).length + 1
  | msg body => 4 + body.length
  | mmsg bodies => mmsgRequest bodies

/-- What a call appends. -/
def appended : WriterCall → List UInt8
  | magic text => Utf8.asBytes text
  | cmd line => lineBytes line
  | msg body => bodyBytes body
  | mmsg bodies => mmsgBytes bodies

/-- The body of a multiple publish, if the call writes one, has less than `2 ^ 31` bytes. -/
def Small : WriterCall → Prop
  | mmsg bodies => mmsgSize bodies < 2 ^ 31
  | _ => True

/-- A call appends, and finds the capacity it needs. -/
theorem run_eq {call : WriterCall} (h : call.Small) (buf : BytesMut) :
    ∃ buf', call.run buf = .ok buf' ∧ buf'.bytes = buf.bytes ++ call.appended := by
  cases call with
  | magic text => exact ⟨_, rfl, bytes_writeMagic buf text⟩
  | cmd line => exact writeCmd_eq buf line
  | msg body => exact writeMsg_eq buf body
  | mmsg bodies =>
    obtain ⟨buf', hwrite⟩ := writeMmsg_ok h buf
    exact ⟨buf', hwrite, bytes_of_writeMmsg hwrite⟩

/-- A call appends as many bytes as it reserves. -/
theorem length_appended {call : WriterCall} (h : call.Small) :
    call.appended.length = call.reserved := by
  cases call with
  | magic text => rfl
  | cmd line => simp [appended, reserved, lineBytes]
  | msg body => exact length_bodyBytes body
  | mmsg bodies =>
    rw [appended, reserved, mmsgRequest_of_lt h, mmsgBytes_eq h, length_bodyBytes,
      length_mmsgBlock, Nat.add_comm]

/-- Calls append one after the other. -/
theorem foldlM_run_eq {calls : List WriterCall} (h : ∀ call ∈ calls, call.Small)
    (buf : BytesMut) : ∃ buf', calls.foldlM run buf = .ok buf' ∧
      buf'.bytes = buf.bytes ++ calls.flatMap appended := by
  induction calls generalizing buf with
  | nil => exact ⟨buf, rfl, by simp⟩
  | cons call calls ih =>
    obtain ⟨buf₁, hone, hbytes₁⟩ := run_eq (h call List.mem_cons_self) buf
    obtain ⟨buf₂, hrest, hbytes₂⟩ :=
      ih (fun call' h' => h call' (List.mem_cons_of_mem call h')) buf₁
    refine ⟨buf₂, ?_, ?_⟩
    · rw [List.foldlM_cons, hone]
      exact hrest
    · rw [hbytes₂, hbytes₁, List.flatMap_cons, List.append_assoc]

end WriterCall

/-- Take any buffer and any sequence of calls of the writers, with bodies of less than `2 ^ 31`
bytes.  All calls find the capacity they need.  Each of them appends to what the buffer held before,
as many bytes as it reserves; and what `write_mmsg` appends is read back as its list of messages. -/
theorem writers_exact (buf : BytesMut) {calls : List WriterCall}
    (hcalls : ∀ bodies, .mmsg bodies ∈ calls → mmsgSize bodies < 2 ^ 31) :
    ∃ buf', calls.foldlM WriterCall.run buf = .ok buf' ∧ buf.bytes <+: buf'.bytes ∧
      ∀ pre call post, calls = pre ++ call :: post →
        ∃ buf₁ buf₂ out, pre.foldlM WriterCall.run buf = .ok buf₁ ∧ call.run buf₁ = .ok buf₂ ∧
          buf₂.bytes = buf₁.bytes ++ out ∧ out.length = call.reserved ∧
          ∀ bodies, call = .mmsg bodies → readMmsg out = some (bodies, []) := by
  have hsmall : ∀ call ∈ calls, call.Small := by
    intro call hcall
    cases call with
    | mmsg bodies => exact hcalls bodies hcall
    | _ => trivial
  obtain ⟨buf', hrun, hbytes⟩ := WriterCall.foldlM_run_eq hsmall buf
  refine ⟨buf', hrun, ⟨_, hbytes.symm⟩, ?_⟩
  rintro pre call post rfl
  have hcall : call.Small := hsmall call (by simp)
  obtain ⟨buf₁, hpre, -⟩ := WriterCall.foldlM_run_eq
    (fun call' h' => hsmall call' (List.mem_append_left _ h')) buf
  obtain ⟨buf₂, hone, hbytes₂⟩ := WriterCall.run_eq hcall buf₁
  refine ⟨buf₁, buf₂, call.appended, hpre, hone, hbytes₂, WriterCall.length_appended hcall, ?_⟩
  rintro bodies rfl
  have hread := readMmsg_mmsgBytes hcall []
  rwa [List.append_nil] at hread

/-- A multiple publish of no message and one of two, into a buffer with two bytes free. -/
theorem writers_exact_mmsg :
    ∃ buf', [WriterCall.magic VERSION, .cmd "MPUB t", .mmsg [], .msg [1], .mmsg [[2], []]].foldlM
        WriterCall.run ⟨[0], 3, fun _ => 0, by decide⟩ = .ok buf' ∧
      [0] <+: buf'.bytes ∧ buf'.bytes.length = 42 := by
  have hcalls : ∀ bodies, WriterCall.mmsg bodies ∈
      [.magic VERSION, .cmd "MPUB t", .mmsg [], .msg [1], .mmsg [[2], []]] →
      mmsgSize bodies < 2 ^ 31 := by
    intro bodies h
    simp only [List.mem_cons, WriterCall.mmsg.injEq, reduceCtorEq, false_or, List.not_mem_nil,
      or_false] at h
    rcases h with rfl | rfl <;> decide
  obtain ⟨buf', hrun, hpre, -⟩ := writers_exact ⟨[0], 3, fun _ => 0, by decide⟩ hcalls
  refine ⟨buf', hrun, hpre, ?_⟩
  cases hrun
  decide

/-! ## The command -/

/-- The form of a multiple publish: its line, and its count and bodies behind their length. -/
def mpubBytes (topic : String) (payloads : List (List UInt8)) : List UInt8 :=
  Utf8.asBytes ("MPUB " ++ topic) ++ 10 ::
    (BigEndian.encode 4 (mmsgBlock payloads).length ++ mmsgBlock payloads)

/-- The line of a multiple publish. -/
theorem asBytes_mpub (topic : String) (payloads : List (List UInt8)) :
    Utf8.asBytes (NsqCmd.mpub topic payloads).cmd = Utf8.asBytes ("MPUB " ++ topic) := by
  have hspace : "MPUB " = "MPUB" ++ " " := by decide
  rw [hspace]
  rfl

/-- The form is read back, whatever follows. -/
theorem parseMpub_mpubBytes {topic : String} {payloads : List (List UInt8)}
    (htopic : ' ' ∉ topic.toList ∧ '\n' ∉ topic.toList) (hsize : mmsgSize payloads < 2 ^ 31)
    (rest : List UInt8) :
    parseMpub (mpubBytes topic payloads ++ rest) = some ((topic, payloads), rest) := by
  have hwords : ∀ w ∈ (NsqCmd.mpub topic payloads).words,
      ' ' ∉ w.toList ∧ '\n' ∉ w.toList := by
    simp only [NsqCmd.words, List.forall_mem_cons, List.not_mem_nil, false_imp_iff, implies_true,
      and_true]
    exact ⟨by decide, htopic⟩
  have hline := readLine_append (NsqCmd.newline_not_mem_cmd hwords) (mmsgBytes payloads ++ rest)
  have hsplit := NsqCmd.splitOn_cmd hwords
  have hbytes : mpubBytes topic payloads ++ rest =
      Utf8.asBytes (NsqCmd.mpub topic payloads).cmd ++ 10 :: (mmsgBytes payloads ++ rest) := by
    rw [mpubBytes, asBytes_mpub topic payloads, mmsgBytes_eq hsize, bodyBytes, List.append_assoc,
      List.cons_append]
  rw [hbytes, parseMpub, hline]
  simp only [Option.bind_eq_bind, Option.bind_some, hsplit, NsqCmd.words,
    readMmsg_mmsgBytes hsize, Option.map_some]

namespace Conn

/-- `write_cmd` of a multiple publish appends its form, and the parser of the server recovers topic
and payloads and stops at its end. -/
def WritesMpub (c : Conn) (topic : String) (payloads : List (List UInt8)) : Prop :=
  ∃ c' out, c.writeCmd (NsqCmd.mpub topic payloads).asCmd = .ok c' ∧
    c'.wBuf.bytes = c.wBuf.bytes ++ out ∧ out = mpubBytes topic payloads ∧
    ∀ rest, parseMpub (out ++ rest) = some ((topic, payloads), rest)

/-- With two payloads or more, the encoding of the command is the form. -/
theorem cmdBytes_mpub {topic : String} {payloads : List (List UInt8)}
    (hlen : 2 ≤ payloads.length) (hsize : mmsgSize payloads < 2 ^ 31) :
    cmdBytes (NsqCmd.mpub topic payloads).asCmd = mpubBytes topic payloads := by
  obtain ⟨m, m', ms, rfl⟩ : ∃ m m' ms, payloads = m :: m' :: ms := by
    rcases payloads with _ | ⟨m, _ | ⟨m', ms⟩⟩
    · simp at hlen
    · simp at hlen
    · exact ⟨m, m', ms, rfl⟩
  have hbody := mmsgBytes_eq hsize
  rw [bodyBytes] at hbody
  rw [mpubBytes, ← hbody, ← asBytes_mpub topic (m :: m' :: ms)]
  simp [cmdBytes, NsqCmd.asCmd, NsqCmd.msg, lineBytes]

/-- With two payloads or more, `write_cmd` succeeds. -/
theorem writesMpub_of_two {c : Conn} {topic : String} {payloads : List (List UInt8)}
    (htopic : ' ' ∉ topic.toList ∧ '\n' ∉ topic.toList) (hsize : mmsgSize payloads < 2 ^ 31)
    (hlen : 2 ≤ payloads.length) : c.WritesMpub topic payloads := by
  obtain ⟨buf₁, hline, -⟩ := NsqClient.writeCmd_eq c.wBuf (NsqCmd.mpub topic payloads).cmd
  obtain ⟨buf₂, hbody⟩ := writeMmsg_ok hsize buf₁
  have henc : encodeCmd c.wBuf (NsqCmd.mpub topic payloads).asCmd = .ok buf₂ := by
    unfold encodeCmd
    rw [NsqCmd.asCmd, hline, Except.ok_bind]
    rcases payloads with _ | ⟨m, _ | ⟨m', ms⟩⟩
    · simp at hlen
    · simp at hlen
    · exact hbody
  have hwrite : c.writeCmd (NsqCmd.mpub topic payloads).asCmd = .ok { c with wBuf := buf₂ } := by
    unfold Conn.writeCmd
    rw [henc]
  refine ⟨_, _, hwrite, ?_, rfl, parseMpub_mpubBytes htopic hsize⟩
  rw [← cmdBytes_mpub hlen hsize]
  exact bytes_of_encodeCmd henc

/-- With no payload or one, what `write_cmd` appends is too short to be the form. -/
theorem not_writesMpub_of_lt_two {c : Conn} {topic : String} {payloads : List (List UInt8)}
    (hlen : payloads.length < 2) : ¬ c.WritesMpub topic payloads := by
  rintro ⟨c', out, hwrite, hout, rfl, -⟩
  have hbytes := (wBuf_of_writeCmd hwrite).1
  rw [hout] at hbytes
  have hsame := congrArg List.length (List.append_cancel_left hbytes)
  rw [mpubBytes, ← asBytes_mpub topic payloads] at hsame
  rcases payloads with _ | ⟨m, _ | ⟨m', ms⟩⟩
  · simp [cmdBytes, NsqCmd.asCmd, NsqCmd.msg, lineBytes, mmsgBlock] at hsame
  · simp [cmdBytes, NsqCmd.asCmd, NsqCmd.msg, lineBytes, mmsgBlock, bodyBytes] at hsame
    omega
  · simp only [List.length_cons] at hlen
    omega

/-- For every connection, every topic without space and newline, and every list of payloads whose
body has less than `2 ^ 31` bytes, `write_cmd` of the multiple publish appends its form if and only
if there are at least two payloads. -/
theorem writesMpub_iff (c : Conn) {topic : String} {payloads : List (List UInt8)}
    (htopic : ' ' ∉ topic.toList ∧ '\n' ∉ topic.toList) (hsize : mmsgSize payloads < 2 ^ 31) :
    c.WritesMpub topic payloads ↔ 2 ≤ payloads.length := by
  constructor
  · intro h
    by_contra hlen
    exact not_writesMpub_of_lt_two (by omega) h
  · exact writesMpub_of_two htopic hsize

/-- Two payloads, one of them empty. -/
theorem writesMpub_iff_two :
    (Conn.new (.default none) [] .exact).WritesMpub "t" [[1], []] :=
  (writesMpub_iff _ ⟨by decide, by decide⟩ (by decide)).mpr (by decide)

/-- One payload, and none. -/
theorem not_writesMpub_one :
    ¬ (Conn.new (.default none) [] .exact).WritesMpub "t" [[1]] ∧
    ¬ (Conn.new (.default none) [] .exact).WritesMpub "t" [] :=
  ⟨not_writesMpub_of_lt_two (by decide), not_writesMpub_of_lt_two (by decide)⟩

end Conn

end NsqClient
