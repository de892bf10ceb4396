import Landsraad.Library.Mixing
import Landsraad.Raft.Persistence
import Landsraad.Raft.Timers

/-!
# Randomized timeouts

Where the election deadlines of a node come from. In one incarnation a node draws the numbers of
one generator in order, skipping none, and its election deadline is always a call's tick plus the
timeout that the last number drawn stands for. Over a period of the generator the timeouts are
spread evenly over their range, and nodes that share a seed never draw the same number at the
same count.
-/

namespace Landsraad

open Checked

/-- How far `nextRand` advances the counter. -/
abbrev randStep : BitVec 64 := 0x9E3779B97F4A7C15

/-- The counter of a node that starts with the configuration and the stored term. -/
def Config.counter (cfg : Config) (term : Nat) : BitVec 64 :=
  (cfg.seed ^^^ (UInt64.ofNat cfg.id * 0x9E3779B97F4A7C15) ^^^ UInt64.ofNat term).toBitVec

/-- The `k`-th number that the node draws. -/
def Config.draw (cfg : Config) (term k : Nat) : BitVec 64 :=
  Mixing.draw Mixing.splitMix randStep (cfg.counter term) k

/-- The timeout that a number stands for. -/
def Config.timeoutOf (cfg : Config) (r : BitVec 64) : Nat :=
  cfg.electionTimeout.1 + r.toNat % (cfg.electionTimeout.2 - cfg.electionTimeout.1 + 1)

/-- The `k`-th timeout that the node draws. -/
def Config.timeout (cfg : Config) (term k : Nat) : Nat := cfg.timeoutOf (cfg.draw term k)

namespace Node

variable {n n' : Node Disk} {now : Nat} {out : List Outgoing}

theorem nextRand_fst :
    n.nextRand.1.toBitVec = Mixing.splitMix (n.rng.toBitVec + randStep) := rfl

theorem nextRand_snd : n.nextRand.2 = { n with rng := n.rng + 0x9E3779B97F4A7C15 } := rfl

/-- A call at `now` drew `k` numbers, the last of them for the election deadline. -/
structure Redrawn (now k : Nat) (n n' : Node Disk) : Prop where
  cfg : n'.cfg = n.cfg
  counter : n'.rng.toBitVec = n.rng.toBitVec + BitVec.ofNat 64 k * randStep
  deadline : (k = 0 ∧ n'.electionDeadline = n.electionDeadline) ∨
    (0 < k ∧ n'.electionDeadline = now + n.cfg.timeoutOf (Mixing.splitMix n'.rng.toBitVec))

theorem Redrawn.none (hcfg : n'.cfg = n.cfg) (hrng : n'.rng = n.rng)
    (hdeadline : n'.electionDeadline = n.electionDeadline) : Redrawn now 0 n n' :=
  ⟨hcfg, by simp [hrng], .inl ⟨rfl, hdeadline⟩⟩

theorem Redrawn.trans {m : Node Disk} {j k : Nat} (h : Redrawn now j n m)
    (h' : Redrawn now k m n') : Redrawn now (j + k) n n' where
  cfg := h'.cfg.trans h.cfg
  counter := by
    rw [h'.counter, h.counter, BitVec.ofNat_add, add_mul, add_assoc]
  deadline := by
    rcases h'.deadline with ⟨rfl, hkept⟩ | ⟨hpos, hset⟩
    · have hcounter : n'.rng.toBitVec = m.rng.toBitVec := by simp [h'.counter]
      rw [hkept, hcounter]
      exact h.deadline
    · rw [h.cfg] at hset
      exact .inr ⟨Nat.add_pos_right j hpos, hset⟩

/-! ## The methods -/

theorem resetElectionTimer_redrawn (h : n.resetElectionTimer now = .ok n') :
    Redrawn now 1 n n' := by
  simp only [resetElectionTimer, bind_eq_ok, pure_eq_ok, add_eq_ok, sub_eq_ok, nextRand_snd] at h
  obtain ⟨_, ⟨_, rfl⟩, _, ⟨_, rfl⟩, _, ⟨_, rfl⟩, _, ⟨_, rfl⟩, rfl⟩ := h
  refine ⟨rfl, ?_, .inr ⟨Nat.one_pos, ?_⟩⟩
  · show (n.rng + 0x9E3779B97F4A7C15).toBitVec = _
    rw [BitVec.one_mul]
    rfl
  · show now + n.cfg.electionTimeout.1 + n.nextRand.1.toBitVec.toNat % _ = _
    rw [nextRand_fst, Nat.add_assoc]
    rfl

theorem stepDown_redrawn {term : Nat} (h : n.stepDown now term = .ok n') :
    Redrawn now 1 n n' := by
  simp only [stepDown, persistHardState, saveHardState_disk, ok_bind, bind_eq_ok, pure_eq_ok] at h
  obtain ⟨_, rfl, hreset⟩ := h
  have hdrawn := resetElectionTimer_redrawn hreset
  exact ⟨hdrawn.cfg, hdrawn.counter, hdrawn.deadline⟩

theorem becomeLeader_redrawn (h : n.becomeLeader now = .ok (n', out)) : Redrawn now 0 n n' := by
  obtain ⟨c, deadline, rfl, _⟩ := becomeLeader_ok h
  exact .none rfl rfl rfl

theorem startElection_redrawn (h : n.startElection now = .ok (n', out)) :
    Redrawn now 1 n n' := by
  simp only [startElection, persistHardState, saveHardState_disk, ok_bind, bind_eq_ok, pure_eq_ok,
    add_eq_ok] at h
  obtain ⟨_, ⟨_, rfl⟩, _, rfl, votes, _, f, hreset, h⟩ := h
  have hreset := resetElectionTimer_redrawn hreset
  have hdrawn : Redrawn now 1 n f := ⟨hreset.cfg, hreset.counter, hreset.deadline⟩
  split at h
  · exact hdrawn.trans (becomeLeader_redrawn h)
  · obtain ⟨_, _, h⟩ := bind_eq_ok.mp h
    cases h
    exact hdrawn

theorem tick_redrawn (h : n.tick now = .ok (n', out)) : ∃ k ≤ 1, Redrawn now k n n' := by
  rcases tick_ok h with ⟨rfl, _⟩ | ⟨_, deadline, rfl, _⟩ | ⟨_, hs⟩
  · exact ⟨0, Nat.zero_le _, .none rfl rfl rfl⟩
  · exact ⟨0, Nat.zero_le _, .none rfl rfl rfl⟩
  · exact ⟨1, le_rfl, startElection_redrawn hs⟩

theorem propose_redrawn {command : List UInt8}
    {answer : Except ProposeError (Nat × List Outgoing)}
    (h : n.propose now command = .ok (n', answer)) : Redrawn now 0 n n' := by
  rcases propose_ok h with ⟨_, rfl, _⟩ | ⟨_, c, out, rfl, _⟩
  · exact .none rfl rfl rfl
  · exact .none rfl rfl rfl

theorem onRequestVote_redrawn {sender term lastLogIndex lastLogTerm : Nat}
    (h : n.onRequestVote now sender term lastLogIndex lastLogTerm = .ok (n', out)) :
    ∃ k ≤ 1, Redrawn now k n n' := by
  unfold onRequestVote at h
  dsimp only at h
  split at h
  · obtain ⟨t, _, h⟩ := bind_eq_ok.mp h
    split at h
    · simp only [persistHardState, saveHardState_disk, ok_bind, bind_eq_ok, pure_eq_ok] at h
      obtain ⟨_, rfl, n₁, hreset, h⟩ := h
      cases h
      have hdrawn := resetElectionTimer_redrawn hreset
      exact ⟨1, le_rfl, hdrawn.cfg, hdrawn.counter, hdrawn.deadline⟩
    · cases h
      exact ⟨0, Nat.zero_le _, .none rfl rfl rfl⟩
  · cases h
    exact ⟨0, Nat.zero_le _, .none rfl rfl rfl⟩

theorem onVoteResponse_redrawn {sender term : Nat} {granted : Bool}
    (h : n.onVoteResponse now sender term granted = .ok (n', out)) : Redrawn now 0 n n' := by
  rcases onVoteResponse_ok h with ⟨rfl, _⟩ | ⟨_, _, _, _, ⟨_, hl⟩ | ⟨rfl, _⟩⟩
  · exact .none rfl rfl rfl
  · have hdrawn := becomeLeader_redrawn hl
    exact ⟨hdrawn.cfg, hdrawn.counter, hdrawn.deadline⟩
  · exact .none rfl rfl rfl

theorem mergeEntries_redrawn {prevIndex : Nat} {entries : List Entry}
    (hle : prevIndex ≤ n.log.length) (h : n.mergeEntries prevIndex 0 entries = .ok n') :
    Redrawn now 0 n n' := by
  rcases mergeEntries_ok hle h with ⟨rfl, _⟩ | ⟨j, e, _, _, _, _, rfl⟩
  · exact .none rfl rfl rfl
  · unfold spliced
    split <;> exact .none rfl rfl rfl

theorem onAppendEntries_redrawn {sender term prevIndex prevTerm leaderCommit : Nat}
    {entries : List Entry}
    (h : n.onAppendEntries now sender term prevIndex prevTerm entries leaderCommit =
      .ok (n', out)) : ∃ k ≤ 1, Redrawn now k n n' := by
  unfold onAppendEntries at h
  dsimp only at h
  split at h
  · cases h
    exact ⟨0, Nat.zero_le _, .none rfl rfl rfl⟩
  obtain ⟨_, _, h⟩ := bind_eq_ok.mp h
  obtain ⟨f, hreset, h⟩ := bind_eq_ok.mp h
  have hreset := resetElectionTimer_redrawn hreset
  have hdrawn : Redrawn now 1 n f := ⟨hreset.cfg, hreset.counter, hreset.deadline⟩
  refine ⟨1, le_rfl, ?_⟩
  split at h
  · cases h
    exact hdrawn
  · next hle =>
    obtain ⟨t, _, h⟩ := bind_eq_ok.mp h
    split at h
    · cases h
      exact hdrawn
    · obtain ⟨m, hmerge, h⟩ := bind_eq_ok.mp h
      obtain ⟨matched, _, h⟩ := bind_eq_ok.mp h
      cases h
      have hmerged := hdrawn.trans (mergeEntries_redrawn (Nat.le_of_not_lt hle) hmerge)
      split <;> exact ⟨hmerged.cfg, hmerged.counter, hmerged.deadline⟩

theorem onAppendResponse_redrawn {sender term matchIndex : Nat} {success : Bool}
    (h : n.onAppendResponse sender term success matchIndex = .ok (n', out)) :
    Redrawn now 0 n n' := by
  rcases onAppendResponse_ok h with ⟨_, rfl, _⟩ | ⟨_, _, known, _, hcase⟩
  · exact .none rfl rfl rfl
  rcases hcase with ⟨_, hcommit, _⟩ | ⟨_, next, o, _, rfl, _⟩
  · obtain ⟨c, rfl, _⟩ := advanceCommit_ok hcommit
    exact .none rfl rfl rfl
  · exact .none rfl rfl rfl

theorem receive_redrawn {sender : Nat} {msg : Message}
    (h : n.receive now sender msg = .ok (n', out)) : ∃ k ≤ 1, Redrawn now k n n' := by
  cases msg with
  | requestVote term lastLogIndex lastLogTerm => exact onRequestVote_redrawn h
  | voteResponse term granted => exact ⟨0, Nat.zero_le _, onVoteResponse_redrawn h⟩
  | appendEntries term prevIndex prevTerm entries leaderCommit => exact onAppendEntries_redrawn h
  | appendResponse term success matchIndex => exact ⟨0, Nat.zero_le _, onAppendResponse_redrawn h⟩

/-- A message of a later term may make the node draw twice. -/
theorem handle_redrawn {sender : Nat} {msg : Message}
    (h : n.handle now sender msg = .ok (n', out)) : ∃ k ≤ 2, Redrawn now k n n' := by
  rcases handle_ok h with ⟨_, rfl, _⟩ | ⟨_, _, ⟨_, hr⟩ | ⟨_, f, hf, hr⟩⟩
  · exact ⟨0, Nat.zero_le _, .none rfl rfl rfl⟩
  · obtain ⟨k, hk, hdrawn⟩ := receive_redrawn hr
    exact ⟨k, by omega, hdrawn⟩
  · obtain ⟨k, hk, hdrawn⟩ := receive_redrawn hr
    exact ⟨1 + k, by omega, (stepDown_redrawn hf).trans hdrawn⟩

theorem call_redrawn {c : Call} {answer : Option Nat} (h : n.call c = .ok (n', out, answer)) :
    ∃ k ≤ 2, Redrawn c.now k n n' := by
  cases c with
  | tick now =>
    obtain ⟨ht, rfl⟩ := call_tick_ok h
    obtain ⟨k, hk, hdrawn⟩ := tick_redrawn ht
    exact ⟨k, by omega, hdrawn⟩
  | propose now command =>
    obtain ⟨r, hp, rfl, _⟩ := call_propose_ok h
    exact ⟨0, Nat.zero_le _, propose_redrawn hp⟩
  | handle now sender msg =>
    obtain ⟨hh, rfl⟩ := call_handle_ok h
    exact handle_redrawn hh

/-! ## Incarnations -/

/-- The node, started in `term`, has drawn `k` numbers, the last of them at the tick `t` for the
election deadline. -/
structure Armed (cfg : Config) (term k t : Nat) (n : Node Disk) : Prop where
  same : n.cfg = cfg
  counter : n.rng.toBitVec = cfg.counter term + BitVec.ofNat 64 k * randStep
  deadline : n.electionDeadline = t + cfg.timeout term k

variable {cfg : Config} {d : Disk} {term j k t : Nat} {cs : List Call} {start : Node Disk}

theorem new_armed (h : new cfg d now = .ok n) : n.Armed cfg d.current.term 1 now := by
  simp only [new, load_disk, ok_bind] at h
  obtain ⟨_, _, h⟩ := bind_eq_ok.mp h
  obtain ⟨_, _, hreset⟩ := bind_eq_ok.mp h
  have hdrawn := resetElectionTimer_redrawn hreset
  have hcounter : n.rng.toBitVec = cfg.counter d.current.term + BitVec.ofNat 64 1 * randStep := by
    rw [hdrawn.counter]
    rfl
  rcases hdrawn.deadline with ⟨hzero, _⟩ | ⟨_, hset⟩
  · cases hzero
  · rw [hcounter] at hset
    exact ⟨hdrawn.cfg, hcounter, hset⟩

theorem Armed.redrawn (h : n.Armed cfg term j t) (hdrawn : Redrawn now k n n') :
    n'.Armed cfg term (j + k) (if k = 0 then t else now) := by
  have hcounter : n'.rng.toBitVec = cfg.counter term + BitVec.ofNat 64 (j + k) * randStep := by
    rw [hdrawn.counter, h.counter, BitVec.ofNat_add, add_mul, add_assoc]
  have hcfg : n'.cfg = cfg := hdrawn.cfg.trans h.same
  refine ⟨hcfg, hcounter, ?_⟩
  rcases hdrawn.deadline with ⟨rfl, hkept⟩ | ⟨hpos, hset⟩
  · rw [if_pos rfl, hkept, h.deadline]
    rfl
  · rw [hcounter, h.same] at hset
    rw [if_neg hpos.ne']
    exact hset

theorem callAll_armed (h : n.Armed cfg term j t) (hcs : n.callAll cs = .ok n') :
    ∃ k t', j ≤ k ∧ k ≤ j + 2 * cs.length ∧ t' ∈ t :: cs.map Call.now ∧
      n'.Armed cfg term k t' := by
  induction cs generalizing n j t with
  | nil =>
    cases hcs
    exact ⟨j, t, le_rfl, le_rfl, by simp, h⟩
  | cons c cs ih =>
    obtain ⟨⟨n₁, out, answer⟩, hc, hcs⟩ := bind_eq_ok.mp hcs
    obtain ⟨i, hi, hdrawn⟩ := call_redrawn hc
    obtain ⟨k, t', hle, hk, ht', hend⟩ := ih (h.redrawn hdrawn) hcs
    refine ⟨k, t', by omega, by simp only [List.length_cons]; omega, ?_, hend⟩
    simp only [List.mem_cons, List.map_cons] at ht' ⊢
    rcases ht' with rfl | hlater
    · split <;> simp
    · exact .inr (.inr hlater)

end Node

/-- In a period of the generator, wherever it starts, every timeout is drawn equally often, up to
one. -/
theorem Config.count_timeout {cfg : Config} {term m v : Nat}
    (hv : v ≤ cfg.electionTimeout.2 - cfg.electionTimeout.1) :
    Nat.count (fun k => cfg.timeout term (m + k) = cfg.electionTimeout.1 + v) (2 ^ 64) =
      2 ^ 64 / (cfg.electionTimeout.2 - cfg.electionTimeout.1 + 1) +
        if v < 2 ^ 64 % (cfg.electionTimeout.2 - cfg.electionTimeout.1 + 1) then 1 else 0 := by
  have hstep : randStep * 0xF1DE83E19937733D = 1 := by decide
  have hcount := Mixing.count_draw_mod (s := cfg.counter term + BitVec.ofNat 64 m * randStep)
    Mixing.splitMix_injective hstep (Nat.lt_succ_of_le hv)
  simp only [← Mixing.draw_add] at hcount
  simpa only [timeout, timeoutOf, draw, Nat.add_left_cancel_iff] using hcount

/-- Nodes with one seed count from different numbers. -/
theorem Config.counter_ne {cfg cfg' : Config} {term : Nat} (hseed : cfg'.seed = cfg.seed)
    (hne : cfg'.id ≠ cfg.id) (hid : cfg.id < 2 ^ 64) (hid' : cfg'.id < 2 ^ 64) :
    cfg'.counter term ≠ cfg.counter term := by
  intro h
  have hstep : randStep * 0xF1DE83E19937733D = 1 := by decide
  have hmasked := UInt64.toBitVec_inj.mp h
  rw [UInt64.xor_left_inj, hseed, UInt64.xor_right_inj] at hmasked
  have hids : BitVec.ofNat 64 cfg'.id = BitVec.ofNat 64 cfg.id :=
    Mixing.mul_injective hstep (congrArg UInt64.toBitVec hmasked)
  have hnat := congrArg BitVec.toNat hids
  rw [BitVec.toNat_ofNat, BitVec.toNat_ofNat, Nat.mod_eq_of_lt hid, Nat.mod_eq_of_lt hid'] at hnat
  exact hne hnat

namespace Node

/-- In every incarnation of a node the election deadline is always the tick of the start or of a
call plus the timeout of the last number drawn from its generator. Each call draws the next
numbers, at most two, and sets the deadline by the last of them if it draws any. Over `2 ^ 64`
successive numbers, from any on, each timeout of the configured range occurs equally often, up to
one. A node with another id that shares the seed and starts in the same term draws another number
each time. -/
theorem timeouts_spread {cfg : Config} {d : Disk} {now : Nat} {cs : List Call}
    {start n : Node Disk} (hnew : new cfg d now = .ok start) (hcs : start.callAll cs = .ok n) :
    (∃ k t, 0 < k ∧ k ≤ 2 * cs.length + 1 ∧ t ∈ now :: cs.map Call.now ∧
      n.Armed cfg d.current.term k t ∧
      ∀ c n' out answer, n.call c = .ok (n', out, answer) →
        ∃ j ≤ 2, n'.Armed cfg d.current.term (k + j) (if j = 0 then t else c.now)) ∧
    (∀ m v, v ≤ cfg.electionTimeout.2 - cfg.electionTimeout.1 →
      Nat.count (fun k => cfg.timeout d.current.term (m + k) = cfg.electionTimeout.1 + v)
          (2 ^ 64) =
        2 ^ 64 / (cfg.electionTimeout.2 - cfg.electionTimeout.1 + 1) +
          if v < 2 ^ 64 % (cfg.electionTimeout.2 - cfg.electionTimeout.1 + 1) then 1 else 0) ∧
    ∀ cfg' : Config, cfg'.seed = cfg.seed → cfg'.id ≠ cfg.id → cfg.id < 2 ^ 64 →
      cfg'.id < 2 ^ 64 → ∀ k, cfg'.draw d.current.term k ≠ cfg.draw d.current.term k := by
  obtain ⟨k, t, hle, hk, ht, harmed⟩ := callAll_armed (new_armed hnew) hcs
  refine ⟨⟨k, t, hle, by omega, ht, harmed, fun c n' out answer hc => ?_⟩,
    fun m v => Config.count_timeout, ?_⟩
  · obtain ⟨j, hj, hdrawn⟩ := call_redrawn hc
    exact ⟨j, hj, harmed.redrawn hdrawn⟩
  intro cfg' hseed hne hid hid' k h
  have hsame := Mixing.draw_injective Mixing.splitMix_injective k h
  exact Config.counter_ne hseed hne hid hid' hsame

/-- A node of three with timeouts from 5 to 15 ticks. -/
def patient : Config := { System.eager 0 with electionTimeout := (5, 15), seed := 7 }

/-- It stands for election, and then votes for another in a later term. -/
def outvoted : List Call := [.tick 20, .handle 21 1 (.requestVote 5 0 0)]

def waiting : Node Disk := (new patient Disk.empty 0).toOption.get (by decide +kernel)

theorem timeouts_spread_outvoted :
    ∃ n k t, waiting.callAll outvoted = .ok n ∧ 0 < k ∧ k ≤ 5 ∧ t ∈ [0, 20, 21] ∧
      n.Armed patient 0 k t := by
  have hcs := eq_ok_get (x := waiting.callAll outvoted) (by decide +kernel)
  obtain ⟨k, t, hpos, hk, ht, harmed, _⟩ :=
    (timeouts_spread (eq_ok_get (x := new patient Disk.empty 0) (by decide +kernel)) hcs).1
  exact ⟨_, k, t, hcs, hpos, hk, ht, harmed⟩

end Node

end Landsraad
