import NsqClient.Lib.SelfDelimiting
import NsqClient.Writing

set_option relaxedAutoImplicit false
set_option autoImplicit false

/-!
# Commands can be read back

The server reads a line, splits it on spaces, and reads a body behind its length for the commands
that have one.  This file states that parser, and shows that it reads back any sequence of
commands the client writes, as long as names are non-empty and have no space and no newline.

## Main definitions

* `NsqClient.parseCommand`, `NsqClient.parseCommands` — the parser of the server.
* `NsqClient.NsqCmd.Plain` — the commands it is expected to read: all but the multiple publish.

## Main results

* `NsqClient.reads_parseCommand` — one command is read back, whatever follows.
* `NsqClient.parse_writeCmds` — a sequence of commands is read back.
-/

namespace NsqClient

/-! ## The parser -/

/-- Read up to a newline. -/
def readLine (bs : List UInt8) : Option (List UInt8 × List UInt8) :=
  match bs.dropWhile (· ≠ 10) with
  | [] => none
  | _ :: rest => some (bs.takeWhile (· ≠ 10), rest)

/-- Read a big-endian length of four bytes, and as many bytes. -/
def readBody (bs : List UInt8) : Option (List UInt8 × List UInt8) :=
  let n := BigEndian.decode (bs.take 4)
  if bs.length < 4 + n then none else some ((bs.drop 4).take n, (bs.drop 4).drop n)

/-- A body that is a text. -/
def readText (bs : List UInt8) : Option (String × List UInt8) := do
  let (body, rest) ← readBody bs
  let text ← Utf8.fromUtf8 body
  pure (text, rest)

/-- A number in decimal digits that fits 32 bits. -/
def parseU32 (word : String) : Option UInt32 :=
  let n := Nat.ofDigitChars 10 word.toList 0
  if word ≠ "" ∧ word.toList.all Char.isDigit ∧ n < 2 ^ 32 then some (UInt32.ofNat n) else none

/-- One command, given the words of its line and what follows the line. -/
def parseWords (words : List String) (rest : List UInt8) : Option (NsqCmd × List UInt8) :=
  match words with
  | ["NOP"] => some (.nop, rest)
  | ["CLS"] => some (.cls, rest)
  | ["AUTH"] => (readText rest).map fun (secret, rest) => (.auth secret, rest)
  | ["IDENTIFY"] => (readText rest).map fun (config, rest) => (.identify config, rest)
  | ["RDY", n] => (parseU32 n).map fun n => (.rdy n, rest)
  | ["FIN", id] => some (.fin id, rest)
  | ["TOUCH", id] => some (.touch id, rest)
  | ["PUB", topic] => (readBody rest).map fun (body, rest) => (.pub topic body, rest)
  | ["SUB", topic, channel] => some (.subscribe topic channel, rest)
  | ["REQ", id, timeout] => (parseU32 timeout).map fun timeout => (.requeue id timeout, rest)
  | ["DPUB", topic, delay] => do
    let delay ← parseU32 delay
    let (body, rest) ← readBody rest
    pure (.dpub topic delay body, rest)
  | _ => none

/-- One command off the front of the input. -/
def parseCommand (bs : List UInt8) : Option (NsqCmd × List UInt8) := do
  let (line, rest) ← readLine bs
  let words ← (line.splitOn 32).mapM Utf8.fromUtf8
  parseWords words rest

/-- Commands until nothing is left. -/
def parseCommands (bs : List UInt8) : Option (List NsqCmd) :=
  CodeStream.parseAll parseCommand bs

/-! ## The parts of a command -/

/-- A line is read up to its newline. -/
theorem readLine_append {line : List UInt8} (h : 10 ∉ line) (rest : List UInt8) :
    readLine (line ++ 10 :: rest) = some (line, rest) := by
  have hline : ∀ b ∈ line, decide (b ≠ 10) = true := by
    intro b hb
    have hne : b ≠ 10 := fun heq => h (heq ▸ hb)
    exact decide_eq_true hne
  unfold readLine
  rw [List.dropWhile_append_of_pos hline, List.takeWhile_append_of_pos hline]
  simp

/-- A body of less than `2 ^ 32` bytes is read behind its length. -/
theorem readBody_append {body : List UInt8} (h : body.length < 2 ^ 32) (rest : List UInt8) :
    readBody (bodyBytes body ++ rest) = some (body, rest) := by
  have hlen : (BigEndian.encode 4 body.length).length = 4 := BigEndian.length_encode 4 _
  have hdecode : BigEndian.decode (BigEndian.encode 4 body.length) = body.length :=
    BigEndian.decode_encode_of_lt h
  unfold readBody bodyBytes
  rw [List.append_assoc, List.take_left' hlen, List.drop_left' hlen, hdecode]
  simp only [List.length_append, hlen, List.take_left', List.drop_left']
  rw [if_neg (by omega)]

/-- A text is read back from its body. -/
theorem readText_append {text : String} (h : (Utf8.asBytes text).length < 2 ^ 32)
    (rest : List UInt8) :
    readText (bodyBytes (Utf8.asBytes text) ++ rest) = some (text, rest) := by
  simp [readText, readBody_append h]

/-- The decimal digits of a number. -/
theorem toList_display (n : UInt32) : (NsqCmd.display n).toList = Nat.toDigits 10 n.toNat := by
  rw [NsqCmd.display, Nat.toString_eq_repr, Nat.toList_repr]

/-- A number is read back from its decimal digits. -/
theorem parseU32_display (n : UInt32) : parseU32 (NsqCmd.display n) = some n := by
  have hne : NsqCmd.display n ≠ "" := Nat.repr_ne_empty
  have hdigits : (NsqCmd.display n).toList.all Char.isDigit = true := by
    rw [toList_display, List.all_eq_true]
    intro c hc
    exact Nat.isDigit_of_mem_toDigits (by decide) (by decide) hc
  have hvalue : Nat.ofDigitChars 10 (NsqCmd.display n).toList 0 = n.toNat := by
    rw [toList_display, Nat.ofDigitChars_ten_toDigits]
  unfold parseU32
  rw [hvalue]
  simp only
  rw [if_pos ⟨hne, hdigits, n.toNat_lt⟩, UInt32.ofNat_toNat]

namespace NsqCmd

/-! ## Lines -/

/-- The words of the line of a command. -/
def words : NsqCmd → List String
  | auth _ => ["AUTH"]
  | nop => ["NOP"]
  | subscribe topic channel => ["SUB", topic, channel]
  | rdy n => ["RDY", display n]
  | cls => ["CLS"]
  | identify _ => ["IDENTIFY"]
  | fin id => ["FIN", id]
  | touch id => ["TOUCH", id]
  | requeue id timeout => ["REQ", id, display timeout]
  | pub topic _ => ["PUB", topic]
  | mpub topic _ => ["MPUB", topic]
  | dpub topic delay _ => ["DPUB", topic, display delay]

/-- A name: not empty, without space and newline. -/
def ValidName (name : String) : Prop := name ≠ "" ∧ ' ' ∉ name.toList ∧ '\n' ∉ name.toList

/-- The commands the server is expected to read: any but the multiple publish, with valid names
and with bodies whose length fits 32 bits. -/
def Plain : NsqCmd → Prop
  | auth secret => (Utf8.asBytes secret).length < 2 ^ 32
  | nop => True
  | subscribe topic channel => ValidName topic ∧ ValidName channel
  | rdy _ => True
  | cls => True
  | identify config => (Utf8.asBytes config).length < 2 ^ 32
  | fin id => ValidName id
  | touch id => ValidName id
  | requeue id _ => ValidName id
  | pub topic body => ValidName topic ∧ body.length < 2 ^ 32
  | mpub _ _ => False
  | dpub topic _ body => ValidName topic ∧ body.length < 2 ^ 32

/-- The line of a command is its words, with a space between them. -/
theorem asBytes_cmd (c : NsqCmd) :
    Utf8.asBytes c.cmd = [32].intercalate (c.words.map Utf8.asBytes) := by
  have hspace : Utf8.asBytes " " = [32] := by decide
  cases c <;>
    simp only [cmd, words, Utf8.asBytes_append, hspace, List.map_cons, List.map_nil,
      List.intercalate_cons_cons, List.intercalate_singleton, List.append_assoc]

/-- The digits of a number are neither spaces nor newlines. -/
theorem not_mem_display {b : Char} (hb : b.isDigit = false) (n : UInt32) :
    b ∉ (display n).toList := by
  rw [toList_display]
  intro h
  have hdigit := Nat.isDigit_of_mem_toDigits (by decide) (by decide) h
  rw [hb] at hdigit
  cases hdigit

/-- The words of a command have no space and no newline in them. -/
theorem not_mem_words {c : NsqCmd} (hc : c.Plain) :
    ∀ w ∈ c.words, ' ' ∉ w.toList ∧ '\n' ∉ w.toList := by
  have hdisplay : ∀ n, ' ' ∉ (display n).toList ∧ '\n' ∉ (display n).toList :=
    fun n => ⟨not_mem_display rfl n, not_mem_display rfl n⟩
  cases c <;> simp only [words, List.forall_mem_cons, List.not_mem_nil, false_imp_iff, implies_true,
    and_true]
  case auth => decide
  case nop => decide
  case subscribe topic channel => exact ⟨by decide, hc.1.2, hc.2.2⟩
  case rdy n => exact ⟨by decide, hdisplay n⟩
  case cls => decide
  case identify => decide
  case fin id => exact ⟨by decide, hc.2⟩
  case touch id => exact ⟨by decide, hc.2⟩
  case requeue id timeout => exact ⟨by decide, hc.2, hdisplay timeout⟩
  case pub topic body => exact ⟨by decide, hc.1.2⟩
  case mpub => exact hc.elim
  case dpub topic delay body => exact ⟨by decide, hc.1.2, hdisplay delay⟩

/-- The bytes of a word have no space and no newline among them. -/
theorem not_mem_asBytes_words {c : NsqCmd}
    (hc : ∀ w ∈ c.words, ' ' ∉ w.toList ∧ '\n' ∉ w.toList) :
    ∀ w ∈ c.words.map Utf8.asBytes, 32 ∉ w ∧ 10 ∉ w := by
  intro w hw
  obtain ⟨s, hs, rfl⟩ := List.mem_map.mp hw
  obtain ⟨hspace, hnewline⟩ := hc s hs
  exact ⟨Utf8.not_mem_asBytes (by decide) hspace, Utf8.not_mem_asBytes (by decide) hnewline⟩

/-- What is neither in the separator nor in the parts is not in the whole. -/
theorem not_mem_intercalate {b : UInt8} {sep : List UInt8} {ls : List (List UInt8)}
    (hsep : b ∉ sep) (hls : ∀ l ∈ ls, b ∉ l) : b ∉ sep.intercalate ls := by
  induction ls with
  | nil => simp
  | cons l ls ih =>
    have hl : b ∉ l := hls l List.mem_cons_self
    have ih := ih fun l' hl' => hls l' (List.mem_cons_of_mem l hl')
    cases ls with
    | nil => simpa using hl
    | cons l' ls =>
      rw [List.intercalate_cons_cons]
      simp only [List.mem_append, not_or]
      exact ⟨⟨hl, hsep⟩, ih⟩

/-- The line of a command has no newline in it. -/
theorem newline_not_mem_cmd {c : NsqCmd}
    (hc : ∀ w ∈ c.words, ' ' ∉ w.toList ∧ '\n' ∉ w.toList) : 10 ∉ Utf8.asBytes c.cmd := by
  rw [asBytes_cmd]
  exact not_mem_intercalate (by decide) fun w hw => (not_mem_asBytes_words hc w hw).2

/-- Splitting the line of a command on spaces gives its words. -/
theorem splitOn_cmd {c : NsqCmd} (hc : ∀ w ∈ c.words, ' ' ∉ w.toList ∧ '\n' ∉ w.toList) :
    ((Utf8.asBytes c.cmd).splitOn 32).mapM Utf8.fromUtf8 = some c.words := by
  have hne : c.words.map Utf8.asBytes ≠ [] := by cases c <;> exact List.cons_ne_nil _ _
  have hspace : ∀ w ∈ c.words.map Utf8.asBytes, 32 ∉ w :=
    fun w hw => (not_mem_asBytes_words hc w hw).1
  have hback : Utf8.fromUtf8 ∘ Utf8.asBytes = pure := funext Utf8.fromUtf8_asBytes
  rw [asBytes_cmd, List.splitOn_intercalate 32 hspace hne, List.mapM_map, hback, List.mapM_pure]
  simp

end NsqCmd

/-! ## Reading back -/

/-- What follows the line of a command is its body, if it has one. -/
theorem parseWords_words {c : NsqCmd} (hc : c.Plain) (rest : List UInt8) :
    parseWords c.words (c.msg.flatMap bodyBytes ++ rest) = some (c, rest) := by
  cases c <;>
    simp only [NsqCmd.msg, List.flatMap_cons, List.flatMap_nil, List.append_nil, List.nil_append,
      NsqCmd.words, parseWords]
  case auth secret =>
    rw [readText_append hc]
    rfl
  case rdy n =>
    rw [parseU32_display]
    rfl
  case identify config =>
    rw [readText_append hc]
    rfl
  case requeue id timeout =>
    rw [parseU32_display]
    rfl
  case pub topic body =>
    rw [readBody_append hc.2]
    rfl
  case mpub => exact hc.elim
  case dpub topic delay body =>
    rw [parseU32_display, readBody_append hc.2]
    rfl

/-- The encoding of a command is its line, a newline, and its body, if it has one. -/
theorem cmdBytes_asCmd {c : NsqCmd} (hc : c.Plain) :
    cmdBytes c.asCmd = Utf8.asBytes c.cmd ++ 10 :: c.msg.flatMap bodyBytes := by
  cases c
  case mpub => exact hc.elim
  all_goals simp [cmdBytes, NsqCmd.asCmd, lineBytes, NsqCmd.msg]

/-- A command is read back, whatever follows. -/
theorem reads_parseCommand {c : NsqCmd} (hc : c.Plain) :
    CodeStream.Reads parseCommand (cmdBytes c.asCmd) c := by
  intro rest
  have hwords := NsqCmd.not_mem_words hc
  have hline := readLine_append (NsqCmd.newline_not_mem_cmd hwords)
    (c.msg.flatMap bodyBytes ++ rest)
  rw [cmdBytes_asCmd hc, List.append_assoc, List.cons_append]
  unfold parseCommand
  rw [hline]
  simp only [Option.bind_eq_bind, Option.bind_some, NsqCmd.splitOn_cmd hwords]
  exact parseWords_words hc rest

/-! ## Sequences of commands -/

/-- Write commands one after the other with `write_cmd`. -/
def Conn.writeCmds (c : Conn) (cmds : List NsqCmd) : Except (Panic × Conn) Conn :=
  cmds.foldlM (fun c cmd => c.writeCmd cmd.asCmd) c

/-- Writing commands appends the stream of their encodings. -/
theorem Conn.writeCmds_eq (c : Conn) {cmds : List NsqCmd} (hcmds : ∀ cmd ∈ cmds, cmd.Plain) :
    ∃ c', c.writeCmds cmds = .ok c' ∧
      c'.wBuf.bytes = c.wBuf.bytes ++ CodeStream.stream (fun cmd => cmdBytes cmd.asCmd) cmds := by
  induction cmds generalizing c with
  | nil => exact ⟨c, rfl, by simp⟩
  | cons cmd cmds ih =>
    have hlen : cmd.asCmd.msg.length ≤ 1 := by
      have hc := hcmds cmd List.mem_cons_self
      cases cmd
      case mpub => exact hc.elim
      all_goals simp [NsqCmd.asCmd, NsqCmd.msg]
    obtain ⟨buf, hbuf⟩ := encodeCmd_ok c.wBuf hlen
    have hone : c.writeCmd cmd.asCmd = .ok { c with wBuf := buf } := by
      unfold Conn.writeCmd
      rw [hbuf]
    obtain ⟨c', hrest, hbytes⟩ := ih { c with wBuf := buf }
      fun cmd' h => hcmds cmd' (List.mem_cons_of_mem cmd h)
    refine ⟨c', ?_, ?_⟩
    · rw [writeCmds, List.foldlM_cons, hone]
      exact hrest
    · rw [hbytes, CodeStream.stream_cons, ← List.append_assoc]
      rw [show buf.bytes = c.wBuf.bytes ++ cmdBytes cmd.asCmd from bytes_of_encodeCmd hbuf]

/-- Writing a sequence of commands with valid names and bodies one after the other, into a write
buffer of any capacity, appends a byte string that the parser of the server reads back as that
sequence, with nothing left over. -/
theorem parse_writeCmds (c : Conn) {cmds : List NsqCmd} (hcmds : ∀ cmd ∈ cmds, cmd.Plain) :
    ∃ c' out, c.writeCmds cmds = .ok c' ∧ c'.wBuf.bytes = c.wBuf.bytes ++ out ∧
      parseCommands out = some cmds := by
  obtain ⟨c', hwrite, hbytes⟩ := c.writeCmds_eq hcmds
  refine ⟨c', _, hwrite, hbytes, ?_⟩
  apply CodeStream.parseAll_stream
  · intro cmd hcmd
    rw [cmdBytes_asCmd (hcmds cmd hcmd)]
    exact List.append_ne_nil_of_right_ne_nil _ (List.cons_ne_nil _ _)
  · intro cmd hcmd
    exact reads_parseCommand (hcmds cmd hcmd)

/-- A publish whose body is itself a command, and a requeue. -/
theorem parse_writeCmds_pub_requeue :
    ∃ c' out, (Conn.new (.default none) [] .exact).writeCmds
        [.pub "t" (Utf8.asBytes "NOP\n"), .requeue "0a" 4294967295] = .ok c' ∧
      c'.wBuf.bytes = out ∧
      parseCommands out = some [.pub "t" (Utf8.asBytes "NOP\n"), .requeue "0a" 4294967295] := by
  have hcmds : ∀ cmd ∈ [NsqCmd.pub "t" (Utf8.asBytes "NOP\n"), .requeue "0a" 4294967295],
      cmd.Plain := by
    intro cmd hcmd
    rcases List.mem_pair.mp hcmd with rfl | rfl
    · exact ⟨⟨by decide, by decide, by decide⟩, by decide⟩
    · exact ⟨by decide, by decide, by decide⟩
  obtain ⟨c', out, hwrite, hbytes, hparse⟩ :=
    parse_writeCmds (.new (.default none) [] .exact) hcmds
  exact ⟨c', out, hwrite, hbytes, hparse⟩

end NsqClient
