import GraphAgent.Core.Json
import GraphAgent.Library.Frames
import Mathlib.Algebra.Order.Ring.Int

/-!
# AudioSocket messages

`encode_frame` and `read_frame`: a type in one byte, a length in two bytes, and the payload.
What is read back of messages that were encoded one after the other, wherever the stream
ends. What the phone leg asks of the realtime backend first.
-/

namespace GraphAgent.Voice

section Frame

/-- What `encode_frame` raises. -/
inductive EncodeError where
  /-- `bytes must be in range(0, 256)` -/
  | valueError
  /-- `int too big to convert` -/
  | overflowError
  deriving DecidableEq, Repr

/-- One AudioSocket message. -/
structure Message where
  messageType : Int
  payload : List UInt8
  deriving DecidableEq, Repr

/-- `HEADER_SIZE` -/
def headerSize : Nat := 3

/-- `bytes((message_type,))` -/
def typeByte (messageType : Int) : Except EncodeError (List UInt8) :=
  if 0 ≤ messageType ∧ messageType < 256 then .ok [UInt8.ofNat messageType.toNat]
  else .error .valueError

/-- `length.to_bytes(2, "big")` -/
def lengthBytes (length : Nat) : Except EncodeError (List UInt8) :=
  if length < 65536 then .ok [UInt8.ofNat (length / 256), UInt8.ofNat (length % 256)]
  else .error .overflowError

/-- `encode_frame`: `type(1B) + length(2B BE) + payload`. -/
def encodeFrame (message : Message) : Except EncodeError (List UInt8) := do
  let first ← typeByte message.messageType
  let length ← lengthBytes message.payload.length
  return first ++ length ++ message.payload

/-- `reader.readexactly(n)` on a stream that ends after the buffer: the error that it raises
when there are too few bytes has taken them all. -/
def readexactly (n : Nat) (buffer : List UInt8) : Option (List UInt8) × List UInt8 :=
  if buffer.length < n then (none, []) else (some (buffer.take n), buffer.drop n)

/-- `int.from_bytes(data, "big")` -/
def fromBytes (data : List UInt8) : Nat := data.foldl (fun value byte => value * 256 + byte.toNat) 0

/-- `read_frame`: the message or `None`, and what is left of the buffer. -/
def readFrame (buffer : List UInt8) : Option Message × List UInt8 :=
  match readexactly headerSize buffer with
  | (none, rest) => (none, rest)
  | (some header, rest) =>
      let messageType : Int := (header.headD 0).toNat
      let length := fromBytes (header.drop 1)
      if length = 0 then (some ⟨messageType, []⟩, rest)
      else
        match readexactly length rest with
        | (none, rest) => (none, rest)
        | (some payload, rest) => (some ⟨messageType, payload⟩, rest)

/-- What calls of `read_frame` return, one after the other. -/
def readings : Nat → List UInt8 → List (Option Message) := Frames.readings readFrame

end Frame

section Parts

variable {buffer data rest : List UInt8} {message : Message} {n : Nat} {frame : List UInt8}

theorem readexactly_append (h : data.length = n) :
    readexactly n (data ++ rest) = (some data, rest) := by
  subst h
  unfold readexactly
  rw [if_neg (by simp)]
  simp

theorem readexactly_of_short (h : buffer.length < n) : readexactly n buffer = (none, []) :=
  if_pos h

/-- What a call of `readexactly` that does not raise has taken from the buffer. -/
theorem eq_append_of_readexactly (h : readexactly n buffer = (some data, rest)) :
    buffer = data ++ rest ∧ data.length = n := by
  unfold readexactly at h
  split_ifs at h with hshort
  · cases h
  obtain ⟨rfl, rfl⟩ : buffer.take n = data ∧ buffer.drop n = rest := by simpa using h
  have hlength : (buffer.take n).length = n := by
    rw [List.length_take]
    omega
  exact ⟨(List.take_append_drop n buffer).symm, hlength⟩

/-- The message has a type and a length that a header can hold. -/
def Message.InRange (message : Message) : Prop :=
  0 ≤ message.messageType ∧ message.messageType < 256 ∧ message.payload.length ≤ 65535

instance : Decidable message.InRange := inferInstanceAs (Decidable (_ ∧ _))

/-- The header that goes before the payload of a message in range. -/
def Message.header (message : Message) : List UInt8 :=
  [UInt8.ofNat message.messageType.toNat, UInt8.ofNat (message.payload.length / 256),
    UInt8.ofNat (message.payload.length % 256)]

/-- The bytes of a message in range. -/
def Message.bytes (message : Message) : List UInt8 := message.header ++ message.payload

@[simp] theorem length_header : message.header.length = headerSize := rfl

theorem encodeFrame_of_inRange (h : message.InRange) :
    encodeFrame message = .ok message.bytes := by
  obtain ⟨hlow, hhigh, hlength⟩ := h
  unfold encodeFrame typeByte lengthBytes
  rw [if_pos ⟨hlow, hhigh⟩, if_pos (by omega)]
  rfl

theorem toNat_ofNat_of_lt (h : n < 256) : (UInt8.ofNat n).toNat = n := by
  rw [UInt8.toNat_ofNat']
  exact Nat.mod_eq_of_lt h

theorem fromBytes_header (h : message.InRange) :
    fromBytes (message.header.drop 1) = message.payload.length := by
  obtain ⟨-, -, hlength⟩ := h
  have hhigh : (UInt8.ofNat (message.payload.length / 256)).toNat =
      message.payload.length / 256 := toNat_ofNat_of_lt (by omega)
  have hlow : (UInt8.ofNat (message.payload.length % 256)).toNat =
      message.payload.length % 256 := toNat_ofNat_of_lt (by omega)
  simp only [Message.header, fromBytes, List.drop_succ_cons, List.drop_zero, List.foldl_cons,
    List.foldl_nil, hhigh, hlow]
  omega

theorem messageType_header (h : message.InRange) :
    ((message.header.headD 0).toNat : Int) = message.messageType := by
  obtain ⟨hlow, hhigh, -⟩ := h
  have hbyte : (UInt8.ofNat message.messageType.toNat).toNat = message.messageType.toNat :=
    toNat_ofNat_of_lt (by omega)
  simp only [Message.header, List.headD_cons, hbyte]
  omega

/-- The header of a message in range decides what the rest of the buffer is read for. -/
theorem readFrame_header (h : message.InRange) :
    readFrame (message.header ++ rest) =
      if message.payload.length = 0 then (some message, rest)
      else
        match readexactly message.payload.length rest with
        | (none, rest) => (none, rest)
        | (some payload, rest) => (some ⟨message.messageType, payload⟩, rest) := by
  unfold readFrame
  rw [readexactly_append length_header]
  simp only [fromBytes_header h, messageType_header h]
  by_cases hempty : message.payload.length = 0
  · rw [if_pos hempty, if_pos hempty]
    obtain ⟨messageType, payload⟩ := message
    obtain rfl : payload = [] := List.length_eq_zero_iff.1 hempty
    rfl
  · rw [if_neg hempty, if_neg hempty]

theorem readFrame_bytes (h : message.InRange) :
    readFrame (message.bytes ++ rest) = (some message, rest) := by
  rw [Message.bytes, List.append_assoc, readFrame_header h]
  split_ifs with hempty
  · rw [List.length_eq_zero_iff.1 hempty, List.nil_append]
  · rw [readexactly_append rfl]

theorem readFrame_nil : readFrame [] = (none, []) := rfl

/-- A frame that is cut gives nothing, and leaves nothing. -/
theorem readFrame_of_cut (h : message.InRange) {cut : Nat} (hcut : cut < message.bytes.length) :
    readFrame (message.bytes.take cut) = (none, []) := by
  rw [Message.bytes, List.length_append, length_header] at hcut
  rw [Message.bytes, List.take_append, length_header]
  rcases Nat.lt_or_ge cut headerSize with hheader | hheader
  · have hshort : (message.header.take cut ++ message.payload.take (cut - headerSize)).length
        < headerSize := by
      rw [List.length_append, List.length_take, List.length_take, length_header]
      omega
    unfold readFrame
    rw [readexactly_of_short hshort]
  · have hshort : (message.payload.take (cut - headerSize)).length < message.payload.length := by
      rw [List.length_take]
      omega
    rw [List.take_of_length_le (by simpa using hheader), readFrame_header h,
      if_neg (by omega), readexactly_of_short hshort]

end Parts

section Stream

variable {messages : List Message} {buffer rest : List UInt8} {message : Message}

theorem mapM_encodeFrame (h : ∀ message ∈ messages, message.InRange) :
    messages.mapM encodeFrame = .ok (messages.map Message.bytes) := by
  induction messages with
  | nil => rfl
  | cons message messages ih =>
      have hhead := encodeFrame_of_inRange (h message List.mem_cons_self)
      have htail := ih fun other hother => h other (List.mem_cons_of_mem _ hother)
      rw [List.mapM_cons, hhead, htail]
      rfl

theorem fromBytes_lt {high low : UInt8} : fromBytes [high, low] < 65536 := by
  have hhigh := high.toNat_lt
  have hlow := low.toNat_lt
  simp only [fromBytes, List.foldl_cons, List.foldl_nil]
  omega

/-- A header is the header of the message that its type and its length belong to. -/
theorem header_eq {first high low : UInt8} {payload : List UInt8}
    (h : payload.length = fromBytes [high, low]) :
    (Message.mk first.toNat payload).header = [first, high, low] := by
  have hhigh := high.toNat_lt
  have hlow := low.toNat_lt
  simp only [fromBytes, List.foldl_cons, List.foldl_nil] at h
  have hdiv : payload.length / 256 = high.toNat := by omega
  have hmod : payload.length % 256 = low.toNat := by omega
  simp only [Message.header, hdiv, hmod, Int.toNat_natCast, UInt8.ofNat_toNat]

theorem inRange_of_length {first high low : UInt8} {payload : List UInt8}
    (h : payload.length = fromBytes [high, low]) :
    (Message.mk first.toNat payload).InRange := by
  have hfirst := first.toNat_lt
  have hlength : fromBytes [high, low] < 65536 := fromBytes_lt
  refine ⟨?_, ?_, ?_⟩
  · exact Int.natCast_nonneg _
  · show (first.toNat : Int) < 256
    omega
  · show payload.length ≤ 65535
    omega

/-- A message that is read has taken its own bytes from the buffer. -/
theorem eq_bytes_of_readFrame (h : readFrame buffer = (some message, rest)) :
    message.InRange ∧ buffer = message.bytes ++ rest := by
  unfold readFrame at h
  rcases hheader : readexactly headerSize buffer with ⟨_ | header, left⟩
  · rw [hheader] at h
    cases h
  obtain ⟨rfl, hlength⟩ := eq_append_of_readexactly hheader
  obtain ⟨first, high, low, rfl⟩ := List.length_eq_three.1 hlength
  simp only [hheader, List.headD_cons, List.drop_succ_cons, List.drop_zero] at h
  split_ifs at h with hempty
  · obtain ⟨rfl, rfl⟩ : Message.mk first.toNat [] = message ∧ left = rest := by simpa using h
    have hpayload : ([] : List UInt8).length = fromBytes [high, low] := hempty.symm
    exact ⟨inRange_of_length hpayload, by rw [Message.bytes, header_eq hpayload, List.append_nil]⟩
  · rcases hdata : readexactly (fromBytes [high, low]) left with ⟨_ | payload, left'⟩
    · rw [hdata] at h
      cases h
    obtain ⟨rfl, hpayload⟩ := eq_append_of_readexactly hdata
    rw [hdata] at h
    obtain ⟨rfl, rfl⟩ : Message.mk first.toNat payload = message ∧ left' = rest := by
      simpa using h
    exact ⟨inRange_of_length hpayload,
      by rw [Message.bytes, header_eq hpayload, List.append_assoc]⟩

/-- What is written of messages in range is read back; of a stream that ends within the last
message the others are read back; and what is read is what was written. -/
theorem readings_encodeFrame (messages : List Message)
    (h : ∀ message ∈ messages, message.InRange) :
    (∃ frames, messages.mapM encodeFrame = .ok frames ∧
      (∀ later, readings (messages.length + later) frames.flatten =
        messages.map some ++ List.replicate later none) ∧
      ∀ cut, frames.dropLast.flatten.length ≤ cut → cut < frames.flatten.length →
        ∀ later, readings (messages.dropLast.length + later) (frames.flatten.take cut) =
          messages.dropLast.map some ++ List.replicate later none) ∧
    ∀ buffer message rest, readFrame buffer = (some message, rest) →
      ∃ frame, encodeFrame message = .ok frame ∧ buffer = frame ++ rest := by
  have hread : ∀ message ∈ messages, ∀ rest,
      readFrame (message.bytes ++ rest) = (some message, rest) :=
    fun message hmessage _ => readFrame_bytes (h message hmessage)
  refine ⟨⟨_, mapM_encodeFrame h, ?_, ?_⟩, ?_⟩
  · intro later
    have hall : readings (messages.length + later) (messages.flatMap Message.bytes ++ []) =
        messages.map some ++ List.replicate later none :=
      Frames.readings_flatMap_of_none readFrame_nil hread readFrame_nil
    rw [List.append_nil] at hall
    exact hall
  · intro cut hfrom hto later
    rcases List.eq_nil_or_concat' messages with rfl | ⟨earlier, last, rfl⟩
    · simp at hto
    rw [List.dropLast_concat]
    simp only [List.map_append, List.map_cons, List.map_nil, List.dropLast_concat,
      List.flatten_append, List.flatten_cons, List.flatten_nil, List.append_nil,
      List.length_append] at hfrom hto ⊢
    rw [List.take_append, List.take_of_length_le hfrom]
    have hlast : readFrame (last.bytes.take (cut - (earlier.map Message.bytes).flatten.length)) =
        (none, []) := readFrame_of_cut (h last (by simp)) (by omega)
    exact Frames.readings_flatMap_of_none readFrame_nil
      (fun message hmessage => hread message (by simp [hmessage])) hlast
  · intro buffer message rest hmessage
    obtain ⟨hrange, hbuffer⟩ := eq_bytes_of_readFrame hmessage
    exact ⟨_, encodeFrame_of_inRange hrange, hbuffer⟩

/-- An audio frame, and a hangup whose payload is empty. -/
theorem readings_encodeFrame_audio :
    (∀ message ∈ [Message.mk 16 [1, 2], Message.mk 0 []], message.InRange) ∧
    ∃ frames, [Message.mk 16 [1, 2], Message.mk 0 []].mapM encodeFrame = .ok frames ∧
      readings 2 (frames.flatten.take 6) = [some ⟨16, [1, 2]⟩, none] := by
  have hrange : ∀ message ∈ [Message.mk 16 [1, 2], Message.mk 0 []], message.InRange := by
    decide
  obtain ⟨⟨frames, hframes, -, hcut⟩, -⟩ := readings_encodeFrame _ hrange
  obtain rfl : [[16, 0, 2, 1, 2], [0, 0, 0]] = frames := Except.ok.inj hframes
  exact ⟨hrange, _, hframes, hcut 6 (by decide) (by decide) 1⟩

end Stream

section Events

/-- `build_session_update`: the first event of the phone leg. -/
def buildSessionUpdate : Args :=
  [("type", .str "session.update"),
    ("session", .obj
      [("input_audio_format", .str "pcm16"), ("output_audio_format", .str "pcm16"),
        ("turn_detection", .obj [("type", .str "server_vad")])])]

end Events

end GraphAgent.Voice
