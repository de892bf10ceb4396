import Landsraad.Library.Bytes
import Landsraad.Library.Parsing
import Landsraad.Raft.Storage

/-!
# The wire codec

A message travels as the payload of a frame whose type is the kind of the message. Numbers are
little-endian. The frames themselves are those of another crate.
-/

namespace Landsraad

open Bytes Parser

structure Frame where
  frameType : UInt8
  sequence : Nat
  flags : Nat
  payload : List UInt8
deriving DecidableEq, Repr

/-- The frame crate, whose errors are `δ`. -/
structure FrameCodec (δ : Type) where
  encode : Frame → List UInt8
  decode : List UInt8 → Except δ Frame

/-- Decoding gives back the frames that messages travel in. -/
def FrameCodec.Faithful {δ : Type} (codec : FrameCodec δ) : Prop :=
  ∀ frameType payload, codec.decode (codec.encode ⟨frameType, 0, 0, payload⟩) =
    .ok ⟨frameType, 0, 0, payload⟩

/-- The bytes are no frame. -/
def Damaged {δ : Type} (codec : FrameCodec δ) (bytes : List UInt8) : Prop :=
  ∃ error, codec.decode bytes = .error error

instance {δ : Type} (codec : FrameCodec δ) (bytes : List UInt8) : Decidable (Damaged codec bytes) :=
  match h : codec.decode bytes with
  | .error e => .isTrue ⟨e, h⟩
  | .ok _ => .isFalse fun ⟨_, he⟩ => nomatch h.symm.trans he

inductive CodecError (δ : Type)
  | frame (e : δ)
  | unknownType (kind : UInt8)
  | truncated
  | trailingBytes
  | badBool (value : UInt8)
deriving DecidableEq, Repr

/-! ## Encoding -/

def boolByte (b : Bool) : UInt8 := if b then 1 else 0

def Entry.toBytes (e : Entry) : List UInt8 :=
  leBytes 8 e.term ++ leBytes 4 e.command.length ++ e.command

/-- The kind of a message and the payload of its frame. A length beyond 32 bits is cut off. -/
def Message.layout : Message → UInt8 × List UInt8
  | .requestVote term lastLogIndex lastLogTerm =>
    (1, leBytes 8 term ++ leBytes 8 lastLogIndex ++ leBytes 8 lastLogTerm)
  | .voteResponse term granted => (2, leBytes 8 term ++ [boolByte granted])
  | .appendEntries term prevIndex prevTerm entries leaderCommit =>
    (3, leBytes 8 term ++ leBytes 8 prevIndex ++ leBytes 8 prevTerm ++ leBytes 8 leaderCommit ++
      leBytes 4 entries.length ++ entries.flatMap Entry.toBytes)
  | .appendResponse term success matchIndex =>
    (4, leBytes 8 term ++ [boolByte success] ++ leBytes 8 matchIndex)

variable {δ : Type}

def encodeMessage (codec : FrameCodec δ) (msg : Message) : List UInt8 :=
  codec.encode ⟨msg.layout.1, 0, 0, msg.layout.2⟩

/-- Decoding gives back the frame that the message travels in. -/
def FrameCodec.Carries (codec : FrameCodec δ) (msg : Message) : Prop :=
  codec.decode (encodeMessage codec msg) = .ok ⟨msg.layout.1, 0, 0, msg.layout.2⟩

/-! ## Decoding -/

namespace Reader

def splitAt (bytes : List UInt8) (n : Nat) : Checked (List UInt8 × List UInt8) :=
  if n ≤ bytes.length then .ok (bytes.take n, bytes.drop n) else .error .outOfRange

def take (n : Nat) : Parser UInt8 (CodecError δ) (List UInt8) := fun bytes =>
  if bytes.length < n then .ok (.error .truncated)
  else do
    let (a, b) ← splitAt bytes n
    pure (.ok (a, b))

/-- The value of `n` bytes, for a slice converted to an array of that length. -/
def word (n : Nat) (bytes : List UInt8) : Checked Nat :=
  if bytes.length = n then .ok (leValue bytes)
  else .error (.failStop "called `Result::unwrap()` on an `Err` value")

/-- Goes on with the result of a computation that reads nothing. -/
def lift {α : Type} (x : Checked α) : Parser UInt8 (CodecError δ) α := fun bytes => do
  let a ← x
  pure (.ok (a, bytes))

def u64 : Parser UInt8 (CodecError δ) Nat := do lift (word 8 (← take 8))

def u32 : Parser UInt8 (CodecError δ) Nat := do lift (word 4 (← take 4))

def bool : Parser UInt8 (CodecError δ) Bool := do
  let b ← lift (Checked.get (← take 1) 0)
  if b = 0 then pure false else if b = 1 then pure true else fail (.badBool b)

end Reader

open Reader

def readEntry : Parser UInt8 (CodecError δ) Entry := do
  let term ← u64
  let len ← u32
  let command ← take len
  pure ⟨term, command⟩

def readEntries : Nat → Parser UInt8 (CodecError δ) (List Entry)
  | 0 => pure []
  | count + 1 => do
    let e ← readEntry
    let entries ← readEntries count
    pure (e :: entries)

/-- Each entry needs at least 12 bytes, so a huge declared count cannot make the decoder
allocate more than the payload can justify. -/
def readCounted (count : Nat) : Parser UInt8 (CodecError δ) (List Entry) := do
  let rest ← remaining
  if count > rest.length / 12 then fail .truncated else readEntries count

def readRequestVote : Parser UInt8 (CodecError δ) Message := do
  let term ← u64
  let lastLogIndex ← u64
  let lastLogTerm ← u64
  pure (.requestVote term lastLogIndex lastLogTerm)

def readVoteResponse : Parser UInt8 (CodecError δ) Message := do
  let term ← u64
  let granted ← bool
  pure (.voteResponse term granted)

def readAppendEntries : Parser UInt8 (CodecError δ) Message := do
  let term ← u64
  let prevIndex ← u64
  let prevTerm ← u64
  let leaderCommit ← u64
  let count ← u32
  let entries ← readCounted count
  pure (.appendEntries term prevIndex prevTerm entries leaderCommit)

def readAppendResponse : Parser UInt8 (CodecError δ) Message := do
  let term ← u64
  let success ← bool
  let matchIndex ← u64
  pure (.appendResponse term success matchIndex)

def readMessage (kind : UInt8) : Parser UInt8 (CodecError δ) Message :=
  if kind = 1 then readRequestVote
  else if kind = 2 then readVoteResponse
  else if kind = 3 then readAppendEntries
  else if kind = 4 then readAppendResponse
  else fail (.unknownType kind)

def decodeMessage (codec : FrameCodec δ) (datagram : List UInt8) :
    Checked (Except (CodecError δ) Message) :=
  match codec.decode datagram with
  | .error e => pure (.error (.frame e))
  | .ok f => (readMessage f.frameType).complete .trailingBytes f.payload

/-! ## The grammar -/

def Entry.Encodable (e : Entry) : Prop :=
  e.term < UInt64.size ∧ e.command.length < UInt32.size

/-- The numbers of a message are 64-bit words, and its lengths are below `2 ^ 32`. -/
def Message.Encodable : Message → Prop
  | .requestVote term lastLogIndex lastLogTerm =>
    term < UInt64.size ∧ lastLogIndex < UInt64.size ∧ lastLogTerm < UInt64.size
  | .voteResponse term _ => term < UInt64.size
  | .appendEntries term prevIndex prevTerm entries leaderCommit =>
    term < UInt64.size ∧ prevIndex < UInt64.size ∧ prevTerm < UInt64.size ∧
      leaderCommit < UInt64.size ∧ entries.length < UInt32.size ∧ ∀ e ∈ entries, e.Encodable
  | .appendResponse term _ matchIndex => term < UInt64.size ∧ matchIndex < UInt64.size

namespace Reader

theorem take_reads (n : Nat) :
    Reads (take n : Parser UInt8 (CodecError δ) _) fun bytes w => bytes.length = n ∧ w = bytes where
  returns input := by
    unfold take
    split
    · exact ⟨_, rfl⟩
    · next hlen =>
      rw [splitAt, if_pos (Nat.le_of_not_lt hlen)]
      exact ⟨_, rfl⟩
  reads input bytes rest := by
    unfold take
    split
    · next hlen =>
      refine iff_of_false (fun h => by cases h) ?_
      rintro ⟨w, ⟨rfl, rfl⟩, rfl⟩
      rw [List.length_append] at hlen
      omega
    · next hlen =>
      have hle : n ≤ input.length := Nat.le_of_not_lt hlen
      rw [splitAt, if_pos hle]
      constructor
      · intro h
        cases h
        refine ⟨_, ⟨?_, rfl⟩, (List.take_append_drop n input).symm⟩
        rw [List.length_take, min_eq_left hle]
      · rintro ⟨w, ⟨rfl, rfl⟩, rfl⟩
        rw [List.take_left, List.drop_left]
        rfl

theorem lift_reads {α : Type} {x : Checked α} {a : α} (h : x = .ok a) :
    Reads (lift x : Parser UInt8 (CodecError δ) α) fun b w => b = a ∧ w = [] := by
  subst h
  exact .pure a

theorem number_reads (k : Nat) :
    Reads (take k >>= fun bytes => lift (word k bytes) : Parser UInt8 (CodecError δ) Nat)
      fun n w => n < 256 ^ k ∧ w = leBytes k n := by
  refine ((take_reads k).bind fun bytes _ h => lift_reads (if_pos h.1)).congr fun n w => ?_
  constructor
  · rintro ⟨bytes, _, _, ⟨hlen, rfl⟩, ⟨rfl, rfl⟩, rfl⟩
    rw [List.append_nil]
    exact (leValue_eq_iff hlen).mp rfl
  · rintro ⟨hn, rfl⟩
    exact ⟨leBytes k n, _, [], ⟨length_leBytes, rfl⟩, ⟨(leValue_leBytes hn).symm, rfl⟩,
      (List.append_nil _).symm⟩

theorem u64_reads :
    Reads (u64 : Parser UInt8 (CodecError δ) Nat) fun n w => n < UInt64.size ∧ w = leBytes 8 n :=
  number_reads 8

theorem u32_reads :
    Reads (u32 : Parser UInt8 (CodecError δ) Nat) fun n w => n < UInt32.size ∧ w = leBytes 4 n :=
  number_reads 4

/-- Of the 256 values of a byte only 0 and 1 are booleans. -/
theorem bool_reads :
    Reads (bool : Parser UInt8 (CodecError δ) Bool) fun b w => w = [boolByte b] := by
  have hbyte : ∀ bytes u, (bytes.length = 1 ∧ u = bytes) →
      Reads (lift (Checked.get bytes 0) >>= fun b =>
          if b = 0 then pure false else if b = 1 then pure true else fail (CodecError.badBool b) :
        Parser UInt8 (CodecError δ) Bool) fun r v => bytes = [boolByte r] ∧ v = [] := by
    rintro bytes _ ⟨hlen, rfl⟩
    obtain ⟨b, rfl⟩ := List.length_eq_one_iff.mp hlen
    show Reads (if b = 0 then pure false else if b = 1 then pure true
      else fail (CodecError.badBool b)) _
    split
    · next hb =>
      subst hb
      exact (Reads.pure false).congr fun r w => by cases r <;> simp [boolByte]
    split
    · next hb =>
      subst hb
      exact (Reads.pure true).congr fun r w => by cases r <;> simp [boolByte]
    · next hzero hone =>
      exact (Reads.fail _).congr fun r w => by cases r <;> simp [boolByte, hzero, hone]
  refine ((take_reads 1).bind hbyte).congr fun r w => ?_
  constructor
  · rintro ⟨bytes, _, _, ⟨_, rfl⟩, ⟨rfl, rfl⟩, rfl⟩
    rfl
  · rintro rfl
    exact ⟨[boolByte r], _, [], ⟨rfl, rfl⟩, ⟨rfl, rfl⟩, rfl⟩

end Reader

theorem readEntry_reads :
    Reads (readEntry : Parser UInt8 (CodecError δ) Entry) fun e w =>
      e.Encodable ∧ w = e.toBytes := by
  refine (u64_reads.bind fun term _ _ => u32_reads.bind fun len _ _ =>
    (take_reads len).bind fun command _ _ => Reads.pure (Entry.mk term command)).congr fun e w => ?_
  constructor
  · rintro ⟨term, _, _, ⟨hterm, rfl⟩, ⟨len, _, _, ⟨hlen, rfl⟩,
      ⟨command, _, _, ⟨rfl, rfl⟩, ⟨rfl, rfl⟩, rfl⟩, rfl⟩, rfl⟩
    refine ⟨⟨hterm, hlen⟩, ?_⟩
    simp [Entry.toBytes]
  · rintro ⟨⟨hterm, hlen⟩, rfl⟩
    refine ⟨e.term, _, _, ⟨hterm, rfl⟩, ⟨e.command.length, _, _, ⟨hlen, rfl⟩,
      ⟨e.command, _, [], ⟨rfl, rfl⟩, ⟨rfl, rfl⟩, rfl⟩, rfl⟩, ?_⟩
    simp [Entry.toBytes]

theorem readEntries_reads (count : Nat) :
    Reads (readEntries count : Parser UInt8 (CodecError δ) (List Entry)) fun es w =>
      es.length = count ∧ (∀ e ∈ es, e.Encodable) ∧ w = es.flatMap Entry.toBytes := by
  induction count with
  | zero =>
    refine (Reads.pure []).congr fun es w => ?_
    constructor
    · rintro ⟨rfl, rfl⟩
      simp
    · rintro ⟨hlen, _, rfl⟩
      rw [List.length_eq_zero_iff.mp hlen]
      exact ⟨rfl, rfl⟩
  | succ count ih =>
    refine (readEntry_reads.bind fun e _ _ => ih.bind fun es _ _ =>
      Reads.pure (e :: es)).congr fun es w => ?_
    constructor
    · rintro ⟨e, _, _, ⟨he, rfl⟩, ⟨rest, _, _, ⟨rfl, hrest, rfl⟩, ⟨rfl, rfl⟩, rfl⟩, rfl⟩
      refine ⟨rfl, List.forall_mem_cons.mpr ⟨he, hrest⟩, ?_⟩
      rw [List.append_nil, List.flatMap_cons]
    · rintro ⟨hlen, hall, rfl⟩
      cases es with
      | nil => cases hlen
      | cons e rest =>
        obtain ⟨he, hrest⟩ := List.forall_mem_cons.mp hall
        refine ⟨e, _, _, ⟨he, rfl⟩, ⟨rest, _, [], ⟨Nat.succ.inj hlen, hrest, rfl⟩,
          ⟨rfl, rfl⟩, rfl⟩, ?_⟩
        rw [List.append_nil, List.flatMap_cons]

theorem length_flatMap_toBytes (es : List Entry) :
    12 * es.length ≤ (es.flatMap Entry.toBytes).length := by
  induction es with
  | nil => exact Nat.zero_le _
  | cons e rest ih =>
    have hentry : 12 ≤ e.toBytes.length := by simp [Entry.toBytes]; omega
    rw [List.flatMap_cons, List.length_append, List.length_cons]
    omega

/-- The check of the count rejects nothing that the loop would accept. -/
theorem readCounted_reads (count : Nat) :
    Reads (readCounted count : Parser UInt8 (CodecError δ) (List Entry)) fun es w =>
      es.length = count ∧ (∀ e ∈ es, e.Encodable) ∧ w = es.flatMap Entry.toBytes := by
  refine (readEntries_reads count).guarded .truncated ?_
  rintro es _ rest ⟨rfl, _, rfl⟩
  have hlen := length_flatMap_toBytes es
  rw [List.length_append]
  omega

theorem requestVote_reads :
    Reads (readRequestVote : Parser UInt8 (CodecError δ) Message) fun m w =>
      m.Encodable ∧ m.layout = (1, w) := by
  refine (u64_reads.bind fun term _ _ => u64_reads.bind fun lastLogIndex _ _ =>
    u64_reads.bind fun lastLogTerm _ _ =>
      Reads.pure (Message.requestVote term lastLogIndex lastLogTerm)).congr fun m w => ?_
  constructor
  · rintro ⟨a, _, _, ⟨ha, rfl⟩, ⟨b, _, _, ⟨hb, rfl⟩, ⟨c, _, _, ⟨hc, rfl⟩, ⟨rfl, rfl⟩, rfl⟩, rfl⟩,
      rfl⟩
    exact ⟨⟨ha, hb, hc⟩, by simp [Message.layout]⟩
  · rintro ⟨hm, hlayout⟩
    cases m with
    | requestVote a b c =>
      obtain ⟨_, rfl⟩ := Prod.mk.inj hlayout
      obtain ⟨ha, hb, hc⟩ := hm
      exact ⟨a, _, _, ⟨ha, rfl⟩, ⟨b, _, _, ⟨hb, rfl⟩, ⟨c, _, [], ⟨hc, rfl⟩, ⟨rfl, rfl⟩, rfl⟩, rfl⟩,
        by simp⟩
    | _ => simp [Message.layout] at hlayout

theorem voteResponse_reads :
    Reads (readVoteResponse : Parser UInt8 (CodecError δ) Message) fun m w =>
      m.Encodable ∧ m.layout = (2, w) := by
  refine (u64_reads.bind fun term _ _ => bool_reads.bind fun granted _ _ =>
    Reads.pure (Message.voteResponse term granted)).congr fun m w => ?_
  constructor
  · rintro ⟨a, _, _, ⟨ha, rfl⟩, ⟨b, _, _, rfl, ⟨rfl, rfl⟩, rfl⟩, rfl⟩
    exact ⟨ha, by simp [Message.layout]⟩
  · rintro ⟨hm, hlayout⟩
    cases m with
    | voteResponse a b =>
      obtain ⟨_, rfl⟩ := Prod.mk.inj hlayout
      exact ⟨a, _, _, ⟨hm, rfl⟩, ⟨b, _, [], rfl, ⟨rfl, rfl⟩, rfl⟩, by simp⟩
    | _ => simp [Message.layout] at hlayout

theorem appendEntries_reads :
    Reads (readAppendEntries : Parser UInt8 (CodecError δ) Message) fun m w =>
      m.Encodable ∧ m.layout = (3, w) := by
  refine (u64_reads.bind fun term _ _ => u64_reads.bind fun prevIndex _ _ =>
    u64_reads.bind fun prevTerm _ _ => u64_reads.bind fun leaderCommit _ _ =>
      u32_reads.bind fun count _ _ => (readCounted_reads count).bind fun entries _ _ =>
        Reads.pure (Message.appendEntries term prevIndex prevTerm entries leaderCommit)).congr
    fun m w => ?_
  constructor
  · rintro ⟨a, _, _, ⟨ha, rfl⟩, ⟨b, _, _, ⟨hb, rfl⟩, ⟨c, _, _, ⟨hc, rfl⟩, ⟨d, _, _, ⟨hd, rfl⟩,
      ⟨count, _, _, ⟨hcount, rfl⟩, ⟨es, _, _, ⟨rfl, hes, rfl⟩, ⟨rfl, rfl⟩, rfl⟩, rfl⟩, rfl⟩,
      rfl⟩, rfl⟩, rfl⟩
    exact ⟨⟨ha, hb, hc, hd, hcount, hes⟩, by simp [Message.layout]⟩
  · rintro ⟨hm, hlayout⟩
    cases m with
    | appendEntries a b c es d =>
      obtain ⟨_, rfl⟩ := Prod.mk.inj hlayout
      obtain ⟨ha, hb, hc, hd, hcount, hes⟩ := hm
      exact ⟨a, _, _, ⟨ha, rfl⟩, ⟨b, _, _, ⟨hb, rfl⟩, ⟨c, _, _, ⟨hc, rfl⟩, ⟨d, _, _, ⟨hd, rfl⟩,
        ⟨_, _, _, ⟨hcount, rfl⟩, ⟨es, _, [], ⟨rfl, hes, rfl⟩, ⟨rfl, rfl⟩, rfl⟩, rfl⟩, rfl⟩,
        rfl⟩, rfl⟩, by simp⟩
    | _ => simp [Message.layout] at hlayout

theorem appendResponse_reads :
    Reads (readAppendResponse : Parser UInt8 (CodecError δ) Message) fun m w =>
      m.Encodable ∧ m.layout = (4, w) := by
  refine (u64_reads.bind fun term _ _ => bool_reads.bind fun success _ _ =>
    u64_reads.bind fun matchIndex _ _ =>
      Reads.pure (Message.appendResponse term success matchIndex)).congr fun m w => ?_
  constructor
  · rintro ⟨a, _, _, ⟨ha, rfl⟩, ⟨b, _, _, rfl, ⟨c, _, _, ⟨hc, rfl⟩, ⟨rfl, rfl⟩, rfl⟩, rfl⟩, rfl⟩
    exact ⟨⟨ha, hc⟩, by simp [Message.layout]⟩
  · rintro ⟨hm, hlayout⟩
    cases m with
    | appendResponse a b c =>
      obtain ⟨_, rfl⟩ := Prod.mk.inj hlayout
      obtain ⟨ha, hc⟩ := hm
      exact ⟨a, _, _, ⟨ha, rfl⟩, ⟨b, _, _, rfl, ⟨c, _, [], ⟨hc, rfl⟩, ⟨rfl, rfl⟩, rfl⟩, rfl⟩,
        by simp⟩
    | _ => simp [Message.layout] at hlayout

/-- A message is read from the payload that encodes it under its own kind, and from nothing
else. -/
theorem readMessage_reads (kind : UInt8) :
    Reads (readMessage kind : Parser UInt8 (CodecError δ) Message) fun m w =>
      m.Encodable ∧ m.layout = (kind, w) := by
  unfold readMessage
  split
  · next hkind => exact hkind ▸ requestVote_reads
  split
  · next hkind => exact hkind ▸ voteResponse_reads
  split
  · next hkind => exact hkind ▸ appendEntries_reads
  split
  · next hkind => exact hkind ▸ appendResponse_reads
  · next h₁ h₂ h₃ h₄ =>
    refine (Reads.fail _).congr fun m w => iff_of_false id ?_
    rintro ⟨_, hlayout⟩
    have hkind : m.layout.1 = kind := congrArg Prod.fst hlayout
    cases m with
    | requestVote => exact h₁ hkind.symm
    | voteResponse => exact h₂ hkind.symm
    | appendEntries => exact h₃ hkind.symm
    | appendResponse => exact h₄ hkind.symm

/-- Whatever the datagram, decoding returns; of the messages it returns exactly the one whose
encoding the frame holds. -/
theorem decodeMessage_spec (codec : FrameCodec δ) {datagram : List UInt8} {f : Frame}
    (hf : codec.decode datagram = .ok f) :
    (∃ r, decodeMessage codec datagram = .ok r) ∧
      ∀ m, decodeMessage codec datagram = .ok (.ok m) ↔
        m.Encodable ∧ m.layout = (f.frameType, f.payload) := by
  unfold decodeMessage
  rw [hf]
  exact (readMessage_reads f.frameType).complete .trailingBytes f.payload

theorem decodeMessage_returns (codec : FrameCodec δ) (datagram : List UInt8) :
    ∃ r, decodeMessage codec datagram = .ok r := by
  cases hf : codec.decode datagram with
  | ok f => exact (decodeMessage_spec codec hf).1
  | error e => exact ⟨.error (.frame e), by rw [decodeMessage, hf]; rfl⟩

theorem encodable_of_decode {codec : FrameCodec δ} {datagram : List UInt8} {m : Message}
    (h : decodeMessage codec datagram = .ok (.ok m)) : m.Encodable := by
  cases hf : codec.decode datagram with
  | ok f => exact (((decodeMessage_spec codec hf).2 m).mp h).1
  | error e =>
    rw [decodeMessage, hf] at h
    cases h

theorem decode_carried {codec : FrameCodec δ} {m : Message} (h : m.Encodable)
    (hcarries : codec.Carries m) : decodeMessage codec (encodeMessage codec m) = .ok (.ok m) :=
  ((decodeMessage_spec codec hcarries).2 m).mpr ⟨h, rfl⟩

theorem decode_encode {codec : FrameCodec δ} (hframe : codec.Faithful) {m : Message}
    (h : m.Encodable) : decodeMessage codec (encodeMessage codec m) = .ok (.ok m) :=
  decode_carried h (hframe _ _)

theorem decode_damaged {codec : FrameCodec δ} {bytes : List UInt8} (h : Damaged codec bytes) :
    ∃ e, decodeMessage codec bytes = .ok (.error e) := by
  obtain ⟨error, h⟩ := h
  exact ⟨.frame error, by rw [decodeMessage, h]; rfl⟩

/-- Frames without a checksum: the numbers of the header in unary, the type, the payload. -/
def plainFrames : FrameCodec String where
  encode f := List.replicate f.sequence 1 ++ 0 :: (List.replicate f.flags 1 ++
    0 :: f.frameType :: f.payload)
  decode datagram :=
    let rest := datagram.dropWhile (· = 1)
    let rest' := (rest.drop 1).dropWhile (· = 1)
    match rest'.drop 1 with
    | [] => .error "frame truncated"
    | kind :: payload => .ok ⟨kind, datagram.length - rest.length,
        (rest.drop 1).length - rest'.length, payload⟩

theorem plainFrames_decode (f : Frame) : plainFrames.decode (plainFrames.encode f) = .ok f := by
  have hones : ∀ n (l : List UInt8), (List.replicate n (1 : UInt8) ++ 0 :: l).dropWhile (· = 1) =
      0 :: l := by
    intro n l
    induction n with
    | zero => simp
    | succ n ih => simp [List.replicate_succ, ih]
  simp only [plainFrames, hones, List.drop_succ_cons, List.drop_zero]
  simp

theorem plainFrames_faithful : plainFrames.Faithful := fun _ _ => plainFrames_decode _

/-- The codec is a bijection between messages and the frames of its grammar. No datagram makes
decoding panic. A frame decodes to the message whose kind and payload it holds, and if it holds
none of a message, to an error. So decoding inverts encoding wherever the frame gets through, no
two payloads decode to one message, and the early check of the count rejects nothing that the
entry loop accepts. -/
theorem message_codec_exact (codec : FrameCodec δ) :
    (∀ datagram, ∃ r, decodeMessage codec datagram = .ok r) ∧
    (∀ datagram f, codec.decode datagram = .ok f →
      (∀ m, decodeMessage codec datagram = .ok (.ok m) ↔
        m.Encodable ∧ f.frameType = m.layout.1 ∧ f.payload = m.layout.2) ∧
      ((∀ m : Message, m.Encodable → ¬ (f.frameType = m.layout.1 ∧ f.payload = m.layout.2)) →
        ∃ e, decodeMessage codec datagram = .ok (.error e))) ∧
    (∀ m, m.Encodable → codec.Carries m →
      decodeMessage codec (encodeMessage codec m) = .ok (.ok m)) ∧
    (∀ d d' f f' m, codec.decode d = .ok f → codec.decode d' = .ok f' →
      decodeMessage codec d = .ok (.ok m) → decodeMessage codec d' = .ok (.ok m) →
        f.frameType = f'.frameType ∧ f.payload = f'.payload) ∧
    ∀ count payload es rest,
      (readEntries count : Parser UInt8 (CodecError δ) _) payload = .ok (.ok (es, rest)) →
        ¬ count > payload.length / 12 := by
  have hexact : ∀ datagram f, codec.decode datagram = .ok f → ∀ m,
      decodeMessage codec datagram = .ok (.ok m) ↔
        m.Encodable ∧ f.frameType = m.layout.1 ∧ f.payload = m.layout.2 := by
    intro datagram f hf m
    rw [(decodeMessage_spec codec hf).2, Prod.ext_iff, eq_comm (a := m.layout.1),
      eq_comm (a := m.layout.2)]
  refine ⟨decodeMessage_returns codec,
    fun datagram f hf => ⟨hexact datagram f hf, fun hnone => ?_⟩, fun m => decode_carried,
    fun d d' f f' m hf hf' hd hd' => ?_, fun count payload es rest h => ?_⟩
  · obtain ⟨r, hr⟩ := decodeMessage_returns codec datagram
    cases r with
    | error e => exact ⟨e, hr⟩
    | ok m =>
      obtain ⟨hm, hmatch⟩ := (hexact datagram f hf m).mp hr
      exact absurd hmatch (hnone m hm)
  · obtain ⟨_, hkind, hpayload⟩ := (hexact d f hf m).mp hd
    obtain ⟨_, hkind', hpayload'⟩ := (hexact d' f' hf' m).mp hd'
    exact ⟨hkind.trans hkind'.symm, hpayload.trans hpayload'.symm⟩
  · obtain ⟨w, ⟨rfl, _, rfl⟩, rfl⟩ := ((readEntries_reads count).reads _ _ _).mp h
    have hlen := length_flatMap_toBytes es
    rw [List.length_append]
    omega

/-- A vote in a frame of any sequence number, and a heartbeat with two entries. -/
theorem message_codec_exact_plainFrames :
    decodeMessage plainFrames (plainFrames.encode ⟨2, 5, 3, [7, 0, 0, 0, 0, 0, 0, 0, 1]⟩) =
        .ok (.ok (.voteResponse 7 true)) ∧
      decodeMessage plainFrames (encodeMessage plainFrames
        (.appendEntries 9 5 4 [⟨4, []⟩, ⟨5, [1, 2, 3]⟩] 5)) =
          .ok (.ok (.appendEntries 9 5 4 [⟨4, []⟩, ⟨5, [1, 2, 3]⟩] 5)) :=
  have h := message_codec_exact plainFrames
  ⟨((h.2.1 _ _ (plainFrames_decode _)).1 (.voteResponse 7 true)).mpr
      ⟨by simp [Message.Encodable, UInt64.size], rfl, by decide⟩,
    h.2.2.1 _ (by simp [Message.Encodable, Entry.Encodable, UInt64.size, UInt32.size])
      (plainFrames_decode _)⟩

end Landsraad
