import Mathlib.Data.List.DropRight
import MixedInteger.Telemetry.Link

/-!
# Lines of messages

Messages are written one a line and read back a line at a time. What ends a line need not be what
the writer puts there: carriage returns may stand before the newline, and the last newline may be
missing. Still the messages that are read are those that were written, as long as none of them
holds a newline or ends in a carriage return.

* `LineLink.Line`, `LineLink.stream`: messages with the ends of their lines, and their bytes;
* `LineLink.receive_line`: one line; `LineLink.receives_stream`: any number of them;
* `LineLink.Yields`: what is received from such bytes in all;
* `LineLink.framing_lossless`: nothing is lost on the way.
-/

namespace MixedInteger.LineLink

/-- How a line ends: with carriage returns, mostly none or one, and with a newline unless that is
missing. -/
structure LineEnd where
  returns : Nat
  newline : Bool

def LineEnd.bytes (e : LineEnd) : List UInt8 :=
  List.replicate e.returns 13 ++ if e.newline then [LineLink.newline] else []

structure Line where
  message : String
  ending : LineEnd

/-- A line as it is sent. -/
def Line.sent (message : String) : Line := ⟨message, ⟨0, true⟩⟩

def Line.bytes (line : Line) : List UInt8 := line.message.toUTF8.toList ++ line.ending.bytes

def stream (lines : List Line) : List UInt8 := lines.flatMap Line.bytes

/-- A message that can be told from the end of its line. -/
structure Framable (message : String) : Prop where
  noNewline : '\n' ∉ message.toList
  noReturn : message.toList.getLast? ≠ some '\r'

/-- Lines that can be told from one another: only the last one may lack its newline, and not if
nothing else is left of it. -/
structure Delimited (lines : List Line) : Prop where
  inner : ∀ line ∈ lines.dropLast, line.ending.newline = true
  last : ∀ line ∈ lines.getLast?, line.bytes ≠ []

/-! ## Text as bytes -/

theorem toList_loop (bytes : ByteArray) (i : Nat) (r : List UInt8) :
    ByteArray.toList.loop bytes i r = r.reverse ++ bytes.data.toList.drop i := by
  fun_induction ByteArray.toList.loop bytes i r with
  | case1 i r hlt ih =>
    have hget : bytes.get! i = bytes.data[i] := getElem!_pos bytes.data i hlt
    rw [ih, hget, List.reverse_cons, List.append_assoc,
      List.singleton_append, ← Array.getElem_toList, List.getElem_cons_drop]
  | case2 i r hge =>
    rw [List.drop_eq_nil_of_le (Nat.le_of_not_lt hge),
      List.append_nil]

theorem toList_toUTF8 (s : String) : s.toUTF8.toList = s.toList.flatMap String.utf8EncodeChar := by
  rw [ByteArray.toList, toList_loop, String.toUTF8_eq_toByteArray, ← String.utf8Encode_toList]
  exact List.toList_data_toByteArray

theorem fromUTF8?_flatMap (cs : List Char) :
    String.fromUTF8? (cs.flatMap String.utf8EncodeChar).toByteArray = some (String.ofList cs) := by
  have hvalid : cs.utf8Encode.IsValidUTF8 := ByteArray.isValidUTF8_utf8Encode
  change String.fromUTF8? cs.utf8Encode = _
  unfold String.fromUTF8?
  rw [dif_pos hvalid, Option.some_inj, ← String.toByteArray_inj, String.toByteArray_ofList]
  rfl

/-- Every other character is written without the byte of a newline. -/
theorem newline_notMem_utf8EncodeChar {c : Char} (h : c ≠ '\n') :
    newline ∉ String.utf8EncodeChar c := by
  have hval : c.val.toNat ≠ 10 := fun hc => h (Char.ext (UInt32.toNat_inj.mp hc))
  have hbyte (v : Nat) (hne : v % 256 ≠ 10) : newline ≠ UInt8.ofNat v := by
    intro heq
    have hv := congrArg UInt8.toNat heq
    rw [UInt8.toNat_ofNat'] at hv
    exact hne hv.symm
  -- The characters of one byte are what they are; the other bytes have the highest bit.
  unfold String.utf8EncodeChar
  dsimp only
  split_ifs <;> simp only [List.mem_cons, List.not_mem_nil, or_false, not_or]
  · exact hbyte _ (by omega)
  · exact ⟨hbyte _ (by omega), hbyte _ (by omega)⟩
  · exact ⟨hbyte _ (by omega), hbyte _ (by omega), hbyte _ (by omega)⟩
  · exact ⟨hbyte _ (by omega), hbyte _ (by omega), hbyte _ (by omega), hbyte _ (by omega)⟩

/-! ## One line -/

theorem splitLine_newline {bytes : List UInt8} (h : newline ∉ bytes) (rest : List UInt8) :
    splitLine (bytes ++ newline :: rest) = (bytes ++ [newline], rest) := by
  induction bytes with
  | nil => exact if_pos rfl
  | cons b bytes ih =>
    obtain ⟨hb, hbytes⟩ := List.ne_and_not_mem_of_not_mem_cons h
    rw [List.cons_append, splitLine, if_neg hb.symm, ih hbytes]
    rfl

theorem splitLine_last {bytes : List UInt8} (h : newline ∉ bytes) :
    splitLine bytes = (bytes, []) := by
  induction bytes with
  | nil => rfl
  | cons b bytes ih =>
    obtain ⟨hb, hbytes⟩ := List.ne_and_not_mem_of_not_mem_cons h
    rw [splitLine, if_neg hb.symm, ih hbytes]

theorem chomp_ofList {cs ending : List Char} (hnewline : '\n' ∉ cs)
    (hreturn : cs.getLast? ≠ some '\r') (hending : ∀ c ∈ ending, c = '\r' ∨ c = '\n') :
    chomp (String.ofList (cs ++ ending)) = String.ofList cs := by
  unfold chomp
  rw [String.toList_ofList, List.reverse_append, List.dropWhile_append_of_pos]
  · refine congrArg String.ofList (List.rdropWhile_eq_self_iff.mpr fun hne => ?_)
    simp only [Bool.or_eq_true, decide_eq_true_eq, not_or]
    refine ⟨fun hc => hnewline (hc ▸ List.getLast_mem hne), fun hc => hreturn ?_⟩
    rw [List.getLast?_eq_some_getLast hne, hc]
  · intro c hc
    simpa [or_comm] using hending c (List.mem_reverse.mp hc)

namespace Line

/-- The characters that end the line. -/
def endChars (line : Line) : List Char :=
  List.replicate line.ending.returns '\r' ++ if line.ending.newline then ['\n'] else []

theorem endChars_spec (line : Line) : ∀ c ∈ line.endChars, c = '\r' ∨ c = '\n' := by
  intro c hc
  rcases List.mem_append.mp hc with hreturn | hnewline
  · exact .inl (List.eq_of_mem_replicate hreturn)
  · split at hnewline
    · exact .inr (List.mem_singleton.mp hnewline)
    · cases hnewline

theorem bytes_eq (line : Line) :
    line.bytes = (line.message.toList ++ line.endChars).flatMap String.utf8EncodeChar := by
  have hreturns (n : Nat) :
      (List.replicate n '\r').flatMap String.utf8EncodeChar = List.replicate n 13 := by
    induction n with
    | zero => rfl
    | succ n ih => rw [List.replicate_succ, List.flatMap_cons, ih]; rfl
  rw [List.flatMap_append, endChars, List.flatMap_append, hreturns, ← toList_toUTF8]
  unfold bytes LineEnd.bytes
  cases line.ending.newline <;> rfl

theorem bytes_ne_nil (line : Line) (h : line.ending.newline = true) : line.bytes ≠ [] := by
  unfold bytes LineEnd.bytes
  rw [h]
  simp

end Line

theorem newline_notMem_front {message : String} (h : Framable message) (returns : Nat) :
    newline ∉ message.toUTF8.toList ++ List.replicate returns 13 := by
  rw [List.mem_append, toList_toUTF8, List.mem_flatMap]
  rintro (⟨c, hc, hmem⟩ | hmem)
  · exact newline_notMem_utf8EncodeChar (fun heq => h.noNewline (heq ▸ hc)) hmem
  · exact absurd (List.eq_of_mem_replicate hmem) (by decide)

theorem splitLine_bytes {line : Line} (hframable : Framable line.message) {rest : List UInt8}
    (hdelimited : line.ending.newline = true ∨ rest = []) :
    splitLine (line.bytes ++ rest) = (line.bytes, rest) := by
  have hfront := newline_notMem_front hframable line.ending.returns
  unfold Line.bytes LineEnd.bytes
  rw [← List.append_assoc]
  cases hnewline : line.ending.newline with
  | true =>
    rw [if_pos rfl, List.append_assoc, List.singleton_append]
    exact splitLine_newline hfront rest
  | false =>
    obtain rfl := hdelimited.resolve_left (by rw [hnewline]; exact Bool.false_ne_true)
    rw [if_neg Bool.false_ne_true, List.append_nil, List.append_nil]
    exact splitLine_last hfront

/-- Receiving takes one line and gives its message. -/
theorem receive_line {l : LineLink} {line : Line} {rest : List UInt8}
    (hframable : Framable line.message) (hinput : l.input = line.bytes ++ rest)
    (hdelimited : line.ending.newline = true ∨ rest = []) (hne : line.bytes ≠ []) :
    l.receive = (.ok line.message,
      { l with input := rest, consumed := l.consumed + line.bytes.length }) := by
  have htext : String.fromUTF8? line.bytes.toByteArray
      = some (String.ofList (line.message.toList ++ line.endChars)) := by
    rw [line.bytes_eq, fromUTF8?_flatMap]
  have hchomp : chomp (String.ofList (line.message.toList ++ line.endChars)) = line.message := by
    rw [chomp_ofList hframable.noNewline hframable.noReturn line.endChars_spec,
      String.ofList_toList]
  unfold receive
  rw [hinput, splitLine_bytes hframable hdelimited]
  obtain ⟨b, bytes, hbytes⟩ := List.exists_cons_of_ne_nil hne
  rw [hbytes] at htext ⊢
  dsimp only
  rw [htext]
  dsimp only
  rw [hchomp]

theorem receive_empty {l : LineLink} (h : l.input = []) : l.receive = (.error .closed, l) := by
  unfold receive
  rw [h]
  rfl

/-! ## All lines -/

/-- What the next `k` receives give. -/
def receives (l : LineLink) : Nat → List (Except LinkError String) × LineLink
  | 0 => ([], l)
  | k + 1 =>
    let (outcome, l) := l.receive
    let (outcomes, l) := l.receives k
    (outcome :: outcomes, l)

theorem Delimited.tail {line : Line} {lines : List Line} (h : Delimited (line :: lines)) :
    Delimited lines := by
  obtain _ | ⟨next, lines⟩ := lines
  · exact ⟨nofun, nofun⟩
  · exact ⟨fun l hl => h.inner l (List.mem_cons_of_mem _ hl), fun l hl => h.last l hl⟩

theorem Delimited.head {line : Line} {lines : List Line} (h : Delimited (line :: lines)) :
    (line.ending.newline = true ∨ stream lines = []) ∧ line.bytes ≠ [] := by
  obtain _ | ⟨next, lines⟩ := lines
  · exact ⟨.inr rfl, h.last line rfl⟩
  · have hnewline := h.inner line List.mem_cons_self
    exact ⟨.inl hnewline, line.bytes_ne_nil hnewline⟩

theorem receives_stream {lines : List Line} (hframable : ∀ line ∈ lines, Framable line.message)
    (hdelimited : Delimited lines) {l : LineLink} (hinput : l.input = stream lines) {k : Nat}
    (hk : k ≤ lines.length) :
    l.receives k = ((lines.take k).map fun line => .ok line.message,
      { l with
        input := stream (lines.drop k)
        consumed := l.consumed + (stream (lines.take k)).length }) := by
  induction k generalizing lines l with
  | zero => 
    rw [List.drop_zero, ← hinput]
    rfl
  | succ k ih =>
    obtain _ | ⟨line, lines⟩ := lines
    · cases hk
    · obtain ⟨hnewline, hne⟩ := hdelimited.head
      rw [stream, List.flatMap_cons] at hinput
      rw [receives, receive_line (hframable line List.mem_cons_self) hinput hnewline hne]
      dsimp only
      rw [ih (fun line hline => hframable line (List.mem_cons_of_mem _ hline)) hdelimited.tail rfl
        (Nat.le_of_succ_le_succ hk)]
      simp only [stream, List.take_succ_cons, List.drop_succ_cons, List.map_cons,
        List.flatMap_cons, List.length_append, Nat.add_assoc]

/-- Receiving gives the messages of these lines in order, each with the bytes of its own line, and
then finds that the observer has gone. -/
structure Yields (l : LineLink) (lines : List Line) : Prop where
  messages : ∀ k ≤ lines.length, l.receives k = ((lines.take k).map fun line => .ok line.message,
    { l with
      input := stream (lines.drop k)
      consumed := l.consumed + (stream (lines.take k)).length })
  closed : (l.receives lines.length).2.receive = (.error .closed, (l.receives lines.length).2)

theorem yields_stream {lines : List Line} (hframable : ∀ line ∈ lines, Framable line.message)
    (hdelimited : Delimited lines) {l : LineLink} (hinput : l.input = stream lines) :
    l.Yields lines := by
  refine ⟨fun k hk => receives_stream hframable hdelimited hinput hk, receive_empty ?_⟩
  rw [receives_stream hframable hdelimited hinput (Nat.le_refl _), List.drop_length]
  rfl

/-! ## Writing -/

/-- The sink takes these bytes too. -/
def HasRoom (l : LineLink) (bytes : List UInt8) : Prop :=
  ∀ room ∈ l.room, l.written.length + bytes.length ≤ room

theorem HasRoom.append {l : LineLink} {bytes more : List UInt8} (h : l.HasRoom (bytes ++ more)) :
    l.HasRoom bytes ∧ HasRoom { l with written := l.written ++ bytes } more := by
  simp only [HasRoom, List.length_append] at h ⊢
  exact ⟨fun room hroom => by have := h room hroom; omega,
    fun room hroom => by have := h room hroom; omega⟩

theorem write_of_hasRoom {l : LineLink} {bytes : List UInt8} (h : l.HasRoom bytes) :
    l.write bytes = (.ok (), { l with written := l.written ++ bytes }) := by
  unfold write
  cases hroom : l.room with
  | none => rfl
  | some room =>
    have hle := h room hroom
    dsimp only
    rw [if_pos (by omega), List.take_of_length_le (by omega)]

theorem Line.bytes_sent (message : String) :
    (Line.sent message).bytes = message.toUTF8.toList ++ [newline] := rfl

theorem send_of_hasRoom {l : LineLink} {message : String}
    (h : l.HasRoom (Line.sent message).bytes) :
    l.send message = (.ok (), { l with written := l.written ++ (Line.sent message).bytes }) := by
  rw [Line.bytes_sent] at h ⊢
  obtain ⟨hmessage, hnewline⟩ := h.append
  unfold send
  rw [write_of_hasRoom hmessage]
  dsimp only
  rw [write_of_hasRoom hnewline, List.append_assoc]

def sendAll (l : LineLink) : List String → List (Except LinkError Unit) × LineLink
  | [] => ([], l)
  | message :: messages =>
    let (outcome, l) := l.send message
    let (outcomes, l) := l.sendAll messages
    (outcome :: outcomes, l)

theorem sendAll_of_hasRoom {l : LineLink} {messages : List String}
    (h : l.HasRoom (stream (messages.map Line.sent))) :
    l.sendAll messages = (messages.map fun _ => .ok (),
      { l with written := l.written ++ stream (messages.map Line.sent) }) := by
  induction messages generalizing l with
  | nil => simp [sendAll, stream]
  | cons message messages ih =>
    obtain ⟨hfirst, hrest⟩ := HasRoom.append h
    rw [sendAll, send_of_hasRoom hfirst]
    dsimp only
    rw [ih hrest]
    simp only [stream, List.map_cons, List.flatMap_cons, List.append_assoc]

theorem delimited_sent (messages : List String) : Delimited (messages.map Line.sent) := by
  have hnewline : ∀ line ∈ messages.map Line.sent, line.ending.newline = true := by
    intro line hline
    obtain ⟨message, -, rfl⟩ := List.mem_map.mp hline
    rfl
  exact ⟨fun line hline => hnewline line (List.dropLast_subset _ hline),
    fun line hline => line.bytes_ne_nil (hnewline line (List.mem_of_getLast? hline))⟩

/-- What a sink with room for it has been sent is received as it was sent, also when the lines end
in another way. -/
theorem framing_lossless {messages : List String} (hframable : ∀ m ∈ messages, Framable m) :
    (∀ w : LineLink, w.HasRoom (stream (messages.map Line.sent)) →
      w.sendAll messages = (messages.map fun _ => .ok (),
        { w with written := w.written ++ stream (messages.map Line.sent) })) ∧
    (∀ r : LineLink, r.input = stream (messages.map Line.sent) →
      r.Yields (messages.map Line.sent)) ∧
    ∀ lines, lines.map Line.message = messages → Delimited lines →
      ∀ r : LineLink, r.input = stream lines → r.Yields lines := by
  have hyields (lines : List Line) (hlines : lines.map Line.message = messages)
      (hdelimited : Delimited lines) (r : LineLink) (hinput : r.input = stream lines) :
      r.Yields lines :=
    yields_stream (fun line hline => hframable _ (hlines ▸ List.mem_map_of_mem hline)) hdelimited
      hinput
  refine ⟨fun w hroom => sendAll_of_hasRoom hroom, ?_, hyields⟩
  refine hyields _ ?_ (delimited_sent messages)
  rw [List.map_map]
  exact List.map_id messages

/-- The first line ends as on other systems, the second is empty, and the third has no end. -/
def mixedLines : List Line :=
  [⟨"größer", ⟨1, true⟩⟩, ⟨"", ⟨0, true⟩⟩, ⟨"[1, 2]", ⟨0, false⟩⟩]

theorem framing_lossless_mixed :
    (∀ m ∈ mixedLines.map Line.message, Framable m) ∧ Delimited mixedLines ∧
    (sendAll ⟨[], 0, [], none⟩ (mixedLines.map Line.message)).1 = [.ok (), .ok (), .ok ()] ∧
    (receives ⟨stream mixedLines, 0, [], none⟩ 3).1
      = [.ok "größer", .ok "", .ok "[1, 2]"] ∧
    (receives ⟨stream mixedLines, 0, [], none⟩ 3).2.receive.1 = .error .closed := by
  have hframable : ∀ m ∈ mixedLines.map Line.message, Framable m := by
    simp only [mixedLines, List.map_cons, List.map_nil, List.forall_mem_cons]
    exact ⟨⟨by decide, by decide⟩, ⟨by decide, by decide⟩, ⟨by decide, by decide⟩, nofun⟩
  have hdelimited : Delimited mixedLines := by
    refine ⟨by decide, fun line hline => ?_⟩
    cases hline
    rw [Line.bytes_eq]
    decide
  obtain ⟨hsends, -, hyields⟩ := framing_lossless hframable
  have hmixed := hyields mixedLines rfl hdelimited ⟨stream mixedLines, 0, [], none⟩ rfl
  refine ⟨hframable, hdelimited, ?_, ?_, congrArg Prod.fst hmixed.closed⟩
  · rw [hsends ⟨[], 0, [], none⟩ nofun]
    rfl
  · rw [hmixed.messages 3 (Nat.le_refl _)]
    rfl

end MixedInteger.LineLink
