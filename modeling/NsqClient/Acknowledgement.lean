import Mathlib.Data.List.TakeWhile
import NsqClient.CommandParser
import NsqClient.Dispatch
import NsqClient.Validity

set_option relaxedAutoImplicit false
set_option autoImplicit false

/-!
# The identity of a message

A consumer answers a message by its id: it takes the id out of the payload as a text, and hands the
text back with `FIN`, `TOUCH` or `REQ`.  An id that is not UTF-8 becomes the empty text on the way,
and an id with a space or a newline in it is more than one argument.  This file shows that these
are the only ids that are not carried through.

## Main definitions

* `NsqClient.BytesMsg.idBytes` — the sixteen bytes of the id in a payload.
* `NsqClient.Msg.payload` — a message as a payload.
* `NsqClient.NsqCmd.Carries` — the words the server reads off what `write_cmd` appends.
* `NsqClient.BytesMsg.Kept` — a message loses nothing, and is answered by its id.

## Main results

* `NsqClient.BytesMsg.payload_fields` — the fields of a payload give it back.
* `NsqClient.BytesMsg.kept_iff` — the messages whose identity is kept.
-/

namespace NsqClient

/-! ## Payloads -/

/-- The sixteen bytes of the id in a payload. -/
def BytesMsg.idBytes (m : BytesMsg) : List UInt8 := ((m.bytes.drop 8).drop 2).take 16

/-- A message as a payload: timestamp, attempts, id and body. -/
def Msg.payload (msg : Msg) : List UInt8 :=
  BigEndian.encode 8 msg.timestamp.toUInt64.toNat ++
    (BigEndian.encode 2 msg.attemps.toNat ++ (Utf8.asBytes msg.id ++ msg.body))

/-- The id has sixteen bytes. -/
theorem BytesMsg.length_idBytes {m : BytesMsg} (h : 26 ≤ m.bytes.length) :
    m.idBytes.length = 16 := by
  simp only [idBytes, List.length_take, List.length_drop]
  omega

/-- Eight bytes survive the timestamp. -/
theorem encode_timestamp {bs : List UInt8} (h : bs.length = 8) :
    BigEndian.encode 8 (Int64.ofNat (BigEndian.decode bs)).toUInt64.toNat = bs := by
  have hlt := BigEndian.decode_lt bs
  rw [h] at hlt
  rw [Int64.toUInt64_ofNat', UInt64.toNat_ofNat', Nat.mod_eq_of_lt (by omega), ← h]
  exact BigEndian.encode_decode bs

/-- Two bytes survive the number of attempts. -/
theorem encode_attemps {bs : List UInt8} (h : bs.length = 2) :
    BigEndian.encode 2 (UInt16.ofNat (BigEndian.decode bs)).toNat = bs := by
  have hlt := BigEndian.decode_lt bs
  rw [h] at hlt
  rw [UInt16.toNat_ofNat', Nat.mod_eq_of_lt (by omega), ← h]
  exact BigEndian.encode_decode bs

/-- If the id is a text, the fields give the payload back. -/
theorem BytesMsg.payload_fields {m : BytesMsg} {id : String} (hlen : 10 ≤ m.bytes.length)
    (hid : Utf8.fromUtf8 m.idBytes = some id) : m.fields.id = id ∧ m.fields.payload = m.bytes := by
  have hback := Utf8.asBytes_of_fromUtf8 hid
  have hsame : m.fields.id = id := by
    show (Utf8.fromUtf8 m.idBytes).getD "" = id
    rw [hid, Option.getD_some]
  refine ⟨hsame, ?_⟩
  rw [Msg.payload, hsame, hback]
  show BigEndian.encode 8 (Int64.ofNat (BigEndian.decode (m.bytes.take 8))).toUInt64.toNat ++
    (BigEndian.encode 2 (UInt16.ofNat (BigEndian.decode ((m.bytes.drop 8).take 2))).toNat ++
      (m.idBytes ++ ((m.bytes.drop 8).drop 2).drop 16)) = m.bytes
  rw [encode_timestamp (by rw [List.length_take]; omega),
    encode_attemps (by rw [List.length_take, List.length_drop]; omega), idBytes,
    List.take_append_drop, List.take_append_drop, List.take_append_drop]

/-- If not, sixteen bytes are lost. -/
theorem BytesMsg.length_payload_fields {m : BytesMsg} (hlen : 26 ≤ m.bytes.length)
    (hid : Utf8.fromUtf8 m.idBytes = none) : m.fields.payload.length + 16 = m.bytes.length := by
  have hnone : m.fields.id = "" := by
    show (Utf8.fromUtf8 m.idBytes).getD "" = ""
    rw [hid, Option.getD_none]
  have hbody : m.fields.body = ((m.bytes.drop 8).drop 2).drop 16 := rfl
  simp only [Msg.payload, hnone, hbody, List.length_append, BigEndian.length_encode,
    List.length_drop, show (Utf8.asBytes "").length = 0 from rfl]
  omega

/-! ## Lines -/

/-- A line that is read is followed by its newline and by what is left, and has no other. -/
theorem readLine_eq_some {bs line rest : List UInt8} (h : readLine bs = some (line, rest)) :
    bs = line ++ 10 :: rest ∧ 10 ∉ line := by
  unfold readLine at h
  split at h
  · cases h
  · rename_i b rest' hdrop
    simp only [Option.some.injEq, Prod.mk.injEq] at h
    obtain ⟨rfl, rfl⟩ := h
    have hb : b = 10 := by
      have hhead := List.head?_dropWhile_not (· ≠ 10) bs
      rw [hdrop] at hhead
      simpa using hhead
    subst hb
    refine ⟨?_, ?_⟩
    · rw [← hdrop, List.takeWhile_append_dropWhile]
    · intro hmem
      have hne := List.mem_takeWhile_imp hmem
      simp at hne

/-- What `write_cmd` appends for a command starts with a line of these words, and the server reads
nothing else with it, whatever follows. -/
def NsqCmd.Carries (cmd : NsqCmd) (words : List (List UInt8)) : Prop :=
  ∀ c : Conn, ∃ c' out, c.writeCmd cmd.asCmd = .ok c' ∧ c'.wBuf.bytes = c.wBuf.bytes ++ out ∧
    ∀ rest, ∃ line, readLine (out ++ rest) = some (line, rest) ∧ line.splitOn 32 = words

/-- For a command without a body: its line has no newline in it, and splits into these words. -/
theorem NsqCmd.carries_iff {cmd : NsqCmd} (hmsg : cmd.msg = []) {words : List (List UInt8)} :
    cmd.Carries words ↔
      10 ∉ Utf8.asBytes cmd.cmd ∧ (Utf8.asBytes cmd.cmd).splitOn 32 = words := by
  have hbytes : cmdBytes cmd.asCmd = Utf8.asBytes cmd.cmd ++ [10] := by
    simp [cmdBytes, NsqCmd.asCmd, hmsg, lineBytes]
  constructor
  · intro h
    obtain ⟨c', out, hwrite, hout, hread⟩ := h (.new (.default none) [] .exact)
    have happended := (Conn.wBuf_of_writeCmd hwrite).1
    rw [hout, hbytes] at happended
    obtain rfl := List.append_cancel_left happended
    obtain ⟨line, hline, hwords⟩ := hread []
    rw [List.append_nil] at hline
    obtain ⟨heq, hnewline⟩ := readLine_eq_some hline
    obtain ⟨rfl, -⟩ := List.append_inj' heq rfl
    exact ⟨hnewline, hwords⟩
  · rintro ⟨hnewline, hwords⟩ c
    have hlen : cmd.asCmd.msg.length ≤ 1 := by simp [NsqCmd.asCmd, hmsg]
    obtain ⟨buf, hbuf⟩ := Conn.encodeCmd_ok c.wBuf hlen
    have hwrite : c.writeCmd cmd.asCmd = .ok { c with wBuf := buf } := by
      unfold Conn.writeCmd
      rw [hbuf]
    refine ⟨_, _, hwrite, Conn.bytes_of_encodeCmd hbuf, fun rest => ⟨_, ?_, hwords⟩⟩
    rw [hbytes, List.append_assoc, List.singleton_append]
    exact readLine_append hnewline rest

/-- Splitting gives one word, the whole, exactly if there is no separator. -/
theorem splitOn_eq_singleton_iff {b : UInt8} {bs word : List UInt8} :
    bs.splitOn b = [word] ↔ b ∉ bs ∧ bs = word := by
  constructor
  · intro h
    have hb : b ∉ bs := by
      intro hmem
      obtain ⟨p, q, rfl⟩ := List.append_of_mem hmem
      rw [List.splitOn_append_cons_self] at h
      have hlen := congrArg List.length h
      have hp := List.length_pos_of_ne_nil (List.splitOn_ne_nil b p)
      have hq := List.length_pos_of_ne_nil (List.splitOn_ne_nil b q)
      simp only [List.length_append, List.length_singleton] at hlen
      omega
    rw [List.splitOn_eq_singleton hb] at h
    exact ⟨hb, List.singleton_inj.mp h⟩
  · rintro ⟨hb, rfl⟩
    exact List.splitOn_eq_singleton hb

/-- A command whose line is its name and an id carries the id exactly if there is no space and no
newline in it. -/
theorem NsqCmd.carries_name_iff {cmd : NsqCmd} {name id : String} {word : List UInt8}
    (hmsg : cmd.msg = []) (hcmd : cmd.cmd = name ++ " " ++ id)
    (hname : 32 ∉ Utf8.asBytes name ∧ 10 ∉ Utf8.asBytes name) :
    cmd.Carries [Utf8.asBytes name, word] ↔
      32 ∉ Utf8.asBytes id ∧ 10 ∉ Utf8.asBytes id ∧ Utf8.asBytes id = word := by
  have hspace : Utf8.asBytes " " = [32] := by decide
  have hline : Utf8.asBytes cmd.cmd = Utf8.asBytes name ++ 32 :: Utf8.asBytes id := by
    rw [hcmd, Utf8.asBytes_append, Utf8.asBytes_append, hspace, List.append_assoc,
      List.singleton_append]
  rw [carries_iff hmsg, hline, List.splitOn_append_cons_self, List.splitOn_eq_singleton hname.1,
    List.singleton_append, List.cons.injEq, splitOn_eq_singleton_iff]
  simp [hname.2]
  tauto

/-- So does a requeue, whose line has the timeout behind the id. -/
theorem NsqCmd.carries_requeue {id : String} {timeout : UInt32}
    (hid : 32 ∉ Utf8.asBytes id ∧ 10 ∉ Utf8.asBytes id) :
    (NsqCmd.requeue id timeout).Carries
      [Utf8.asBytes "REQ", Utf8.asBytes id, Utf8.asBytes (NsqCmd.display timeout)] := by
  have hspace : Utf8.asBytes " " = [32] := by decide
  have hname : 32 ∉ Utf8.asBytes "REQ" ∧ 10 ∉ Utf8.asBytes "REQ" := by decide
  have hdigits : 32 ∉ Utf8.asBytes (NsqCmd.display timeout) ∧
      10 ∉ Utf8.asBytes (NsqCmd.display timeout) :=
    ⟨Utf8.not_mem_asBytes (by decide) (not_mem_display (b := ' ') rfl timeout),
      Utf8.not_mem_asBytes (by decide) (not_mem_display (b := '\n') rfl timeout)⟩
  have hline : Utf8.asBytes (NsqCmd.requeue id timeout).cmd = Utf8.asBytes "REQ" ++
      32 :: (Utf8.asBytes id ++ 32 :: Utf8.asBytes (NsqCmd.display timeout)) := by
    simp only [NsqCmd.cmd, Utf8.asBytes_append, hspace, List.append_assoc, List.nil_append,
      List.cons_append]
  rw [carries_iff rfl, hline, List.splitOn_append_cons_self, List.splitOn_append_cons_self,
    List.splitOn_eq_singleton hname.1, List.splitOn_eq_singleton hid.1,
    List.splitOn_eq_singleton hdigits.1]
  simp [hname.2, hid.2, hdigits.2]

/-! ## The identity of a message -/

namespace BytesMsg

/-- The identity of a message is kept: what a consumer makes of the payload gives the payload back,
no other payload gives the same, and the answers to the message carry the sixteen bytes of its id as
one argument. -/
def Kept (m : BytesMsg) : Prop :=
  ∃ msg, Dispatch.consumerMsg m = .ok msg ∧ msg.payload = m.bytes ∧
    (∀ m' : BytesMsg, decodeMsg m'.frame = decodeMsg m.frame → m'.bytes = m.bytes) ∧
    (NsqCmd.fin msg.id).Carries [Utf8.asBytes "FIN", m.idBytes] ∧
    (NsqCmd.touch msg.id).Carries [Utf8.asBytes "TOUCH", m.idBytes] ∧
    ∀ timeout, (NsqCmd.requeue msg.id timeout).Carries
      [Utf8.asBytes "REQ", m.idBytes, Utf8.asBytes (NsqCmd.display timeout)]

/-- Two payloads with the same fields, of which the id is not empty, are the same. -/
theorem bytes_inj {m m' : BytesMsg} {id : String} (hlen : 26 ≤ m.bytes.length)
    (hid : Utf8.fromUtf8 m.idBytes = some id) (h : decodeMsg m'.frame = decodeMsg m.frame) :
    m'.bytes = m.bytes := by
  rw [decodeMsg_eq (show 26 ≤ m.frame.bytes.length from hlen)] at h
  obtain ⟨hlen', -, hfields⟩ := decodeMsg_ok_iff.mp h
  have hback := Utf8.asBytes_of_fromUtf8 hid
  have hid' : Utf8.fromUtf8 m'.idBytes = some id := by
    have hsame : (Utf8.fromUtf8 m'.idBytes).getD "" = (Utf8.fromUtf8 m.idBytes).getD "" :=
      congrArg (fun x => x.2.2.1) hfields
    rw [hid, Option.getD_some] at hsame
    cases hnone : Utf8.fromUtf8 m'.idBytes with
    | some id' =>
      rw [hnone, Option.getD_some] at hsame
      rw [hsame]
    | none =>
      -- the id of `m` has sixteen bytes
      rw [hnone, Option.getD_none] at hsame
      have hlength := length_idBytes hlen
      rw [← hback, ← hsame] at hlength
      exact absurd hlength (by decide)
  obtain ⟨-, hpayload⟩ := payload_fields (by omega) hid
  obtain ⟨-, hpayload'⟩ := payload_fields hlen' hid'
  rw [← hpayload, ← hpayload']
  have hsame : msgFields m'.bytes = msgFields m.bytes := hfields
  simp only [Msg.payload, fields, hsame]

/-- For every payload of at least 26 bytes: the identity of the message is kept if and only if the
sixteen bytes of its id are UTF-8, without a space and without a newline. -/
theorem kept_iff {m : BytesMsg} (hlen : 26 ≤ m.bytes.length) :
    m.Kept ↔ (Utf8.fromUtf8 m.idBytes).isSome = true ∧ 32 ∉ m.idBytes ∧ 10 ∉ m.idBytes := by
  have hfin : 32 ∉ Utf8.asBytes "FIN" ∧ 10 ∉ Utf8.asBytes "FIN" := by decide
  have htouch : 32 ∉ Utf8.asBytes "TOUCH" ∧ 10 ∉ Utf8.asBytes "TOUCH" := by decide
  constructor
  · rintro ⟨msg, hmsg, hpayload, -, hcarries, -⟩
    obtain ⟨hspace, hnewline, hword⟩ := (NsqCmd.carries_name_iff rfl rfl hfin).mp hcarries
    refine ⟨?_, hword ▸ hspace, hword ▸ hnewline⟩
    cases hid : Utf8.fromUtf8 m.idBytes with
    | some id => rfl
    | none =>
      have hshort := length_payload_fields hlen hid
      rw [(consumerMsg_ok_iff.mp hmsg).2.2, hpayload] at hshort
      omega
  · rintro ⟨hid, hspace, hnewline⟩
    obtain ⟨id, hid⟩ := Option.isSome_iff_exists.mp hid
    have hback := Utf8.asBytes_of_fromUtf8 hid
    obtain ⟨hsame, hpayload⟩ := payload_fields (by omega) hid
    have hvalid : m.Valid := hlen
    refine ⟨_, hvalid.consumerMsg_eq, hpayload, fun m' h => bytes_inj hlen hid h, ?_⟩
    rw [hsame, ← hback]
    rw [← hback] at hspace hnewline
    exact ⟨(NsqCmd.carries_name_iff rfl rfl hfin).mpr ⟨hspace, hnewline, rfl⟩,
      (NsqCmd.carries_name_iff rfl rfl htouch).mpr ⟨hspace, hnewline, rfl⟩,
      fun timeout => NsqCmd.carries_requeue ⟨hspace, hnewline⟩⟩

/-- A payload whose id is sixteen digits. -/
theorem kept_iff_digits :
    (⟨0, List.replicate 10 0 ++ List.replicate 16 48 ++ [65], .heap 0⟩ : BytesMsg).Kept :=
  (kept_iff (by decide)).mpr ⟨by decide, by decide, by decide⟩

/-- A payload whose id starts with a byte that no text has: it is answered by an empty id. -/
theorem not_kept_garbled :
    ¬ (⟨0, List.replicate 10 0 ++ 255 :: List.replicate 15 48, .heap 0⟩ : BytesMsg).Kept := by
  rintro ⟨msg, hmsg, hpayload, -⟩
  have hshort := length_payload_fields
    (m := ⟨0, List.replicate 10 0 ++ 255 :: List.replicate 15 48, .heap 0⟩) (by decide) (by decide)
  rw [(consumerMsg_ok_iff.mp hmsg).2.2, hpayload] at hshort
  exact absurd hshort (by decide)

end BytesMsg

end NsqClient
