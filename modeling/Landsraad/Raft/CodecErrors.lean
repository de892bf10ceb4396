import Landsraad.Raft.Codec

/-!
# The errors of the codec

Which error an accepted frame gets is decided by its payload alone: more bytes would complete a
truncated one, a prefix completes one with trailing bytes, and a bad boolean stands after the
term.
-/

namespace Landsraad

open Bytes Parser Reader

variable {δ : Type}

namespace Reader

theorem take_judges (n : Nat) :
    Judges (take n : Parser UInt8 (CodecError δ) _) (fun bytes w => bytes.length = n ∧ w = bytes)
      (fun _ _ => False) .truncated where
  toReads := take_reads n
  speaks := ⟨List.replicate n 0, _, List.length_replicate, rfl⟩
  fails input e h := by
    unfold take at h
    split at h
    · next hlen =>
      cases h
      refine .inl ⟨rfl, _, List.replicate (n - input.length) 0, ?_, ?_, rfl⟩
      · rw [Ne, List.replicate_eq_nil_iff]
        omega
      · rw [List.length_append, List.length_replicate]
        omega
    · next hlen =>
      rw [splitAt, if_pos (Nat.le_of_not_lt hlen)] at h
      cases h
  rejects e w rest h := h.elim

theorem lift_judges {α : Type} {x : Checked α} {a : α} (h : x = .ok a) :
    Judges (lift x : Parser UInt8 (CodecError δ) α) (fun b w => b = a ∧ w = [])
      (fun _ _ => False) .truncated := by
  subst h
  exact .pure a

/-- A number of `k` bytes is only ever too short. -/
theorem number_judges (k : Nat) :
    Judges (take k >>= fun bytes => lift (word k bytes) : Parser UInt8 (CodecError δ) Nat)
      (fun n w => n < 256 ^ k ∧ w = leBytes k n) (fun _ _ => False) .truncated := by
  refine ((take_judges k).bind fun bytes _ h => lift_judges (if_pos h.1)).of_reads
    (number_reads k) ?_
  simp

theorem u64_judges :
    Judges (u64 : Parser UInt8 (CodecError δ) Nat) (fun n w => n < UInt64.size ∧ w = leBytes 8 n)
      (fun _ _ => False) .truncated :=
  number_judges 8

theorem u32_judges :
    Judges (u32 : Parser UInt8 (CodecError δ) Nat) (fun n w => n < UInt32.size ∧ w = leBytes 4 n)
      (fun _ _ => False) .truncated :=
  number_judges 4

theorem bool_cons (v : UInt8) (rest : List UInt8) :
    (bool : Parser UInt8 (CodecError δ) Bool) (v :: rest) =
      if v = 0 then .ok (.ok (false, rest)) else if v = 1 then .ok (.ok (true, rest))
        else .ok (.error (.badBool v)) := by
  show (if v = 0 then pure false else if v = 1 then pure true
    else fail (CodecError.badBool v) : Parser UInt8 (CodecError δ) Bool) rest = _
  split
  · rfl
  split
  · rfl
  · rfl

theorem bool_judges :
    Judges (bool : Parser UInt8 (CodecError δ) Bool) (fun b w => w = [boolByte b])
      (fun e w => ∃ v, e = .badBool v ∧ v ≠ 0 ∧ v ≠ 1 ∧ w = [v]) .truncated where
  toReads := bool_reads
  speaks := ⟨false, _, rfl⟩
  fails input e h := by
    cases input with
    | nil =>
      cases h
      exact .inl ⟨rfl, false, [0], by simp, rfl⟩
    | cons v rest =>
      rw [bool_cons] at h
      split at h
      · cases h
      split at h
      · cases h
      · next hzero hone =>
        cases h
        exact .inr ⟨[v], rest, ⟨v, rfl, hzero, hone, rfl⟩, rfl⟩
  rejects e w rest h := by
    obtain ⟨v, rfl, hzero, hone, rfl⟩ := h
    rw [List.singleton_append, bool_cons, if_neg hzero, if_neg hone]

end Reader

theorem readEntry_judges :
    Judges (readEntry : Parser UInt8 (CodecError δ) Entry)
      (fun e w => e.Encodable ∧ w = e.toBytes) (fun _ _ => False) .truncated := by
  refine (u64_judges.bind fun term _ _ => u32_judges.bind fun len _ _ =>
    (take_judges len).bind fun command _ _ => Judges.pure (Entry.mk term command)).of_reads
      readEntry_reads ?_
  simp

theorem readEntries_judges (count : Nat) :
    Judges (readEntries count : Parser UInt8 (CodecError δ) (List Entry))
      (fun es w => es.length = count ∧ (∀ e ∈ es, e.Encodable) ∧ w = es.flatMap Entry.toBytes)
      (fun _ _ => False) .truncated := by
  induction count with
  | zero => exact (Judges.pure []).of_reads (readEntries_reads 0) (by simp)
  | succ count ih =>
    refine (readEntry_judges.bind fun e _ _ => ih.bind fun es _ _ =>
      Judges.pure (e :: es)).of_reads (readEntries_reads (count + 1)) ?_
    simp

/-- The early check of the count gives the verdict that the loop would come to. -/
theorem readCounted_eq (count : Nat) :
    (readCounted count : Parser UInt8 (CodecError δ) _) = readEntries count := by
  refine guarded_eq fun input hcount => (readEntries_judges count).short_of_unread ?_
  rintro es w rest ⟨rfl, _, rfl⟩ rfl
  have hlen := length_flatMap_toBytes es
  rw [List.length_append] at hcount
  omega

theorem requestVote_judges :
    Judges (readRequestVote : Parser UInt8 (CodecError δ) Message)
      (fun m w => m.Encodable ∧ m.layout = (1, w)) (fun _ _ => False) .truncated := by
  refine (u64_judges.bind fun term _ _ => u64_judges.bind fun lastLogIndex _ _ =>
    u64_judges.bind fun lastLogTerm _ _ =>
      Judges.pure (Message.requestVote term lastLogIndex lastLogTerm)).of_reads
        requestVote_reads ?_
  simp

theorem appendEntries_judges :
    Judges (readAppendEntries : Parser UInt8 (CodecError δ) Message)
      (fun m w => m.Encodable ∧ m.layout = (3, w)) (fun _ _ => False) .truncated := by
  have hcounted : ∀ count, Judges (readCounted count : Parser UInt8 (CodecError δ) _) _ _ _ :=
    fun count => readCounted_eq (δ := δ) count ▸ readEntries_judges count
  refine (u64_judges.bind fun term _ _ => u64_judges.bind fun prevIndex _ _ =>
    u64_judges.bind fun prevTerm _ _ => u64_judges.bind fun leaderCommit _ _ =>
      u32_judges.bind fun count _ _ => (hcounted count).bind fun entries _ _ =>
        Judges.pure (Message.appendEntries term prevIndex prevTerm entries leaderCommit)).of_reads
          appendEntries_reads ?_
  simp

/-- In a response a boolean follows the term. -/
def BadFlag (e : CodecError δ) (w : List UInt8) : Prop :=
  ∃ term v, term < UInt64.size ∧ e = .badBool v ∧ v ≠ 0 ∧ v ≠ 1 ∧ w = leBytes 8 term ++ [v]

theorem response_judges {g : Nat → Bool → Parser UInt8 (CodecError δ) Message}
    {M : Nat → Bool → Message → List UInt8 → Prop}
    {C : Nat → Bool → CodecError δ → List UInt8 → Prop} {L : Message → List UInt8 → Prop}
    (hg : ∀ term flag, Judges (g term flag) (M term flag) (C term flag) .truncated)
    (hC : ∀ term flag e w, ¬ C term flag e w)
    (hL : Reads (do let term ← u64; let flag ← bool; g term flag) L) :
    Judges (do let term ← u64; let flag ← bool; g term flag) L BadFlag .truncated := by
  refine (u64_judges.bind fun term _ _ => bool_judges.bind fun flag _ _ =>
    hg term flag).of_reads hL fun e w => ?_
  constructor
  · rintro (h | ⟨term, _, _, ⟨hterm, rfl⟩, ⟨v, rfl, hzero, hone, rfl⟩ | ⟨_, _, _, _, h, _⟩, rfl⟩)
    · exact h.elim
    · exact ⟨term, v, hterm, rfl, hzero, hone, rfl⟩
    · exact absurd h (hC _ _ _ _)
  · rintro ⟨term, v, hterm, rfl, hzero, hone, rfl⟩
    exact .inr ⟨term, _, _, ⟨hterm, rfl⟩, .inl ⟨v, rfl, hzero, hone, rfl⟩, rfl⟩

theorem voteResponse_judges :
    Judges (readVoteResponse : Parser UInt8 (CodecError δ) Message)
      (fun m w => m.Encodable ∧ m.layout = (2, w)) BadFlag .truncated :=
  response_judges (fun term granted => Judges.pure (Message.voteResponse term granted)) (by simp)
    voteResponse_reads

theorem appendResponse_judges :
    Judges (readAppendResponse : Parser UInt8 (CodecError δ) Message)
      (fun m w => m.Encodable ∧ m.layout = (4, w)) BadFlag .truncated :=
  response_judges (fun term success => u64_judges.bind fun matchIndex _ _ =>
    Judges.pure (Message.appendResponse term success matchIndex)) (by simp) appendResponse_reads

/-- A frame of a known kind fails for want of bytes, or in the boolean of a response. -/
theorem readMessage_judges (sample : Message) :
    Judges (readMessage sample.layout.1 : Parser UInt8 (CodecError δ) Message)
      (fun m w => m.Encodable ∧ m.layout = (sample.layout.1, w))
      (fun e w => (sample.layout.1 = 2 ∨ sample.layout.1 = 4) ∧ BadFlag e w) .truncated := by
  cases sample with
  | requestVote => exact requestVote_judges.congr (fun _ _ => Iff.rfl) (by simp [Message.layout])
  | voteResponse => exact voteResponse_judges.congr (fun _ _ => Iff.rfl) (by simp [Message.layout])
  | appendEntries =>
    exact appendEntries_judges.congr (fun _ _ => Iff.rfl) (by simp [Message.layout])
  | appendResponse =>
    exact appendResponse_judges.congr (fun _ _ => Iff.rfl) (by simp [Message.layout])

theorem readMessage_unknown {kind : UInt8} (h : ∀ m : Message, m.layout.1 ≠ kind)
    (payload : List UInt8) :
    (readMessage kind : Parser UInt8 (CodecError δ) Message) payload =
      .ok (.error (.unknownType kind)) := by
  have hone : kind ≠ 1 := (h (.requestVote 0 0 0)).symm
  have htwo : kind ≠ 2 := (h (.voteResponse 0 false)).symm
  have hthree : kind ≠ 3 := (h (.appendEntries 0 0 0 [] 0)).symm
  have hfour : kind ≠ 4 := (h (.appendResponse 0 false 0)).symm
  simp only [readMessage, if_neg hone, if_neg htwo, if_neg hthree, if_neg hfour]
  rfl

/-- The ninth byte is the boolean. -/
theorem badFlag_iff {payload : List UInt8} {e : CodecError δ} :
    (∃ w rest, BadFlag e w ∧ payload = w ++ rest) ↔
      ∃ v, e = .badBool v ∧ v ≠ 0 ∧ v ≠ 1 ∧ payload[8]? = some v := by
  constructor
  · rintro ⟨_, rest, ⟨term, v, _, rfl, hzero, hone, rfl⟩, rfl⟩
    exact ⟨v, rfl, hzero, hone, by simp⟩
  · rintro ⟨v, rfl, hzero, hone, hv⟩
    obtain ⟨hlen, hv⟩ := List.getElem?_eq_some_iff.mp hv
    have hterm : (payload.take 8).length = 8 := by rw [List.length_take]; omega
    obtain ⟨hlt, hbytes⟩ := (leValue_eq_iff hterm).mp rfl
    refine ⟨_, payload.drop 9, ⟨_, v, hlt, rfl, hzero, hone, rfl⟩, ?_⟩
    rw [← hbytes, ← hv]
    simp

/-! ## Complete payloads -/

section Complete

variable (kind : UInt8) (payload : List UInt8)

/-- The decoder after the frame. -/
def judge : Checked (Except (CodecError δ) Message) :=
  (readMessage kind).complete .trailingBytes payload

theorem decodeMessage_accepted (codec : FrameCodec δ) {datagram : List UInt8} {f : Frame}
    (hf : codec.decode datagram = .ok f) :
    decodeMessage codec datagram = judge f.frameType f.payload := by
  rw [decodeMessage, hf]
  rfl

variable {kind}

theorem judge_unknown (h : ∀ m : Message, m.layout.1 ≠ kind) (e : CodecError δ) :
    judge kind payload = .ok (.error e) ↔ e = .unknownType kind := by
  rw [judge, complete_eq_error, readMessage_unknown h]
  simp [eq_comm]

variable (kind)

theorem judge_other (e : CodecError δ) (hshort : e ≠ .truncated) (hne : e ≠ .trailingBytes) :
    judge kind payload = .ok (.error e) ↔
      (e = .unknownType kind ∧ ∀ m : Message, m.layout.1 ≠ kind) ∨
        (kind = 2 ∨ kind = 4) ∧ ∃ v, e = .badBool v ∧ v ≠ 0 ∧ v ≠ 1 ∧ payload[8]? = some v := by
  by_cases hkind : ∃ sample : Message, sample.layout.1 = kind
  · obtain ⟨sample, rfl⟩ := hkind
    rw [judge, (readMessage_judges sample).complete_error hshort hne, ← badFlag_iff]
    constructor
    · rintro ⟨w, rest, ⟨hresponse, hbad⟩, hpayload⟩
      exact .inr ⟨hresponse, w, rest, hbad, hpayload⟩
    · rintro (⟨_, hnone⟩ | ⟨hresponse, w, rest, hbad, hpayload⟩)
      · exact absurd rfl (hnone sample)
      · exact ⟨w, rest, ⟨hresponse, hbad⟩, hpayload⟩
  · have hnone : ∀ m : Message, m.layout.1 ≠ kind := fun m hm => hkind ⟨m, hm⟩
    rw [judge_unknown payload hnone]
    constructor
    · intro he
      exact .inl ⟨he, hnone⟩
    · rintro (⟨he, _⟩ | ⟨hkind | hkind, _⟩)
      · exact he
      · exact absurd hkind.symm (hnone (.voteResponse 0 false))
      · exact absurd hkind.symm (hnone (.appendResponse 0 false 0))

theorem judge_truncated :
    (judge kind payload : Checked (Except (CodecError δ) _)) = .ok (.error .truncated) ↔
      ∃ m more, Message.Encodable m ∧ more ≠ [] ∧ m.layout = (kind, payload ++ more) := by
  by_cases hkind : ∃ sample : Message, sample.layout.1 = kind
  · obtain ⟨sample, rfl⟩ := hkind
    rw [judge, (readMessage_judges sample).complete_short (by simp [BadFlag]) (by simp)]
    simp only [and_left_comm]
  · rw [judge_unknown payload fun m hm => hkind ⟨m, hm⟩]
    refine iff_of_false (fun h => by cases h) ?_
    rintro ⟨m, _, _, _, hm⟩
    exact hkind ⟨m, congrArg Prod.fst hm⟩

theorem judge_trailingBytes :
    (judge kind payload : Checked (Except (CodecError δ) _)) = .ok (.error .trailingBytes) ↔
      ∃ m word more, Message.Encodable m ∧ more ≠ [] ∧ m.layout = (kind, word) ∧
        payload = word ++ more := by
  by_cases hkind : ∃ sample : Message, sample.layout.1 = kind
  · obtain ⟨sample, rfl⟩ := hkind
    rw [judge, (readMessage_judges sample).complete_trailing (by simp [BadFlag]) (by simp)]
    simp only [and_left_comm, and_assoc]
  · rw [judge_unknown payload fun m hm => hkind ⟨m, hm⟩]
    refine iff_of_false (fun h => by cases h) ?_
    rintro ⟨m, _, _, _, _, hm, _⟩
    exact hkind ⟨m, congrArg Prod.fst hm⟩

end Complete

/-- What decoding reports of an accepted frame is exactly what its payload is. A kind that no
message has is unknown. Of the other payloads, one is truncated exactly when nonempty bytes make
it a message of its kind, has trailing bytes exactly when a message is all but a nonempty end of
it, and has a bad boolean exactly when the ninth byte of a response is not 0 or 1. The early
check of the count decides nothing: with it or without, the entries get the same verdict. So no
message is the beginning of another of its kind. -/
theorem decode_errors_exact (codec : FrameCodec δ) :
    (∀ datagram e, codec.decode datagram = .error e ↔
      decodeMessage codec datagram = .ok (.error (.frame e))) ∧
    (∀ datagram f, codec.decode datagram = .ok f →
      (∀ kind, decodeMessage codec datagram = .ok (.error (.unknownType kind)) ↔
        kind = f.frameType ∧ ∀ m : Message, m.layout.1 ≠ kind) ∧
      (decodeMessage codec datagram = .ok (.error .truncated) ↔
        ∃ m more, Message.Encodable m ∧ more ≠ [] ∧
          m.layout = (f.frameType, f.payload ++ more)) ∧
      (decodeMessage codec datagram = .ok (.error .trailingBytes) ↔
        ∃ m payload more, Message.Encodable m ∧ more ≠ [] ∧
          m.layout = (f.frameType, payload) ∧ f.payload = payload ++ more) ∧
      ∀ v, decodeMessage codec datagram = .ok (.error (.badBool v)) ↔
        (f.frameType = 2 ∨ f.frameType = 4) ∧ v ≠ 0 ∧ v ≠ 1 ∧ f.payload[8]? = some v) ∧
    (∀ count, (readCounted count : Parser UInt8 (CodecError δ) _) = readEntries count) ∧
    ∀ m m' : Message, m.Encodable → m'.Encodable → m.layout.1 = m'.layout.1 →
      m.layout.2 <+: m'.layout.2 → m = m' := by
  refine ⟨fun datagram e => ?_, fun datagram f hf => ?_, readCounted_eq, ?_⟩
  · cases hf : codec.decode datagram with
    | error e' => simp [decodeMessage, hf, Checked.pure_eq_ok]
    | ok f =>
      refine iff_of_false (fun h => by cases h) ?_
      rw [decodeMessage_accepted codec hf]
      simp [judge_other]
  · simp only [decodeMessage_accepted codec hf]
    refine ⟨fun kind => ?_, judge_truncated _ _, judge_trailingBytes _ _, fun v => ?_⟩
    · simp +contextual [judge_other]
    · simp [judge_other]
  · rintro m m' hm hm' hkind ⟨more, hmore⟩
    have hword : m.Encodable ∧ m.layout = (m.layout.1, m.layout.2) := ⟨hm, rfl⟩
    have hlonger : m'.Encodable ∧ m'.layout = (m.layout.1, m.layout.2 ++ more) :=
      ⟨hm', by rw [hmore, hkind]⟩
    exact ((readMessage_reads (δ := δ) m.layout.1).prefix_free hword hlonger).2

/-- Three bytes of a vote request, a response with the flag 2, a response of ten bytes, and the
type 99. -/
theorem decode_errors_exact_plainFrames :
    decodeMessage plainFrames (plainFrames.encode ⟨1, 0, 0, [0, 0, 0]⟩) =
        .ok (.error .truncated) ∧
      decodeMessage plainFrames (plainFrames.encode ⟨2, 0, 0, [0, 0, 0, 0, 0, 0, 0, 0, 2]⟩) =
        .ok (.error (.badBool 2)) ∧
      decodeMessage plainFrames (plainFrames.encode ⟨2, 0, 0, [0, 0, 0, 0, 0, 0, 0, 0, 0, 0]⟩) =
        .ok (.error .trailingBytes) ∧
      decodeMessage plainFrames (plainFrames.encode ⟨99, 0, 0, []⟩) =
        .ok (.error (.unknownType 99)) := by
  have h := fun f => (decode_errors_exact plainFrames).2.1 _ f (plainFrames_decode f)
  refine ⟨(h _).2.1.mpr ⟨.requestVote 0 0 0, List.replicate 21 0, ?_, by decide, by decide⟩,
    ((h _).2.2.2 2).mpr ⟨by decide, by decide, by decide, rfl⟩,
    (h _).2.2.1.mpr ⟨.voteResponse 0 false, _, [0], ?_, by decide, rfl, by decide⟩,
    ((h _).1 99).mpr ⟨rfl, fun m => ?_⟩⟩
  · simp [Message.Encodable, UInt64.size]
  · simp [Message.Encodable, UInt64.size]
  · cases m <;> simp [Message.layout]

/-! ## Commands that are too long -/

/-- The length of a command is cut to 32 bits, the command is not. -/
theorem Entry.toBytes_oversized (term : Nat) (command : List UInt8) :
    (Entry.mk term command).toBytes =
      (Entry.mk term (command.take (command.length % UInt32.size))).toBytes ++
        command.drop (command.length % UInt32.size) := by
  have hlen : (command.take (command.length % UInt32.size)).length =
      command.length % UInt32.size :=
    List.length_take_of_le (Nat.mod_le _ _)
  have hbytes : leBytes 4 (command.length % UInt32.size) = leBytes 4 command.length :=
    leBytes_mod 4 command.length
  simp only [Entry.toBytes, hlen, hbytes, List.append_assoc, List.take_append_drop]

/-- What is cut off the length of the last command is left over. -/
theorem decode_oversized {codec : FrameCodec δ} (hframe : codec.Faithful)
    {term prevIndex prevTerm leaderCommit t : Nat} {entries : List Entry} {command : List UInt8}
    (h : Message.Encodable (.appendEntries term prevIndex prevTerm (entries ++ [⟨t, []⟩])
      leaderCommit)) (hlen : UInt32.size ≤ command.length) :
    decodeMessage codec (encodeMessage codec
      (.appendEntries term prevIndex prevTerm (entries ++ [⟨t, command⟩]) leaderCommit)) =
        .ok (.error .trailingBytes) := by
  let short := command.take (command.length % UInt32.size)
  have hmod : command.length % UInt32.size < UInt32.size := Nat.mod_lt _ (by decide)
  rw [encodeMessage, decodeMessage_accepted codec (hframe _ _), judge_trailingBytes]
  refine ⟨.appendEntries term prevIndex prevTerm (entries ++ [⟨t, short⟩]) leaderCommit, _,
    command.drop (command.length % UInt32.size), ?_, ?_, rfl, ?_⟩
  · obtain ⟨hterm, hprev, hprevTerm, hcommit, hcount, hentries⟩ := h
    obtain ⟨hsized, hlast⟩ := List.forall_mem_append.mp hentries
    have hfits : (Entry.mk t short).Encodable := by
      refine ⟨(hlast _ (List.mem_singleton_self _)).1, ?_⟩
      exact (List.length_take_le _ _).trans_lt hmod
    refine ⟨hterm, hprev, hprevTerm, hcommit, ?_, ?_⟩
    · simpa using hcount
    · exact List.forall_mem_append.mpr ⟨hsized, List.forall_mem_singleton.mpr hfits⟩
  · intro hnil
    have hdrop := congrArg List.length hnil
    rw [List.length_drop, List.length_nil] at hdrop
    omega
  · simp only [Message.layout, List.length_append, List.length_singleton, List.flatMap_append,
      List.flatMap_singleton, Entry.toBytes_oversized t command, List.append_assoc, short]

end Landsraad
