import NiosSnake.Arbitrator

/-!
# The multiplexer in front of a slave

`system_mm_interconnect_0_cmd_mux_001`, for any number of masters: the commands of the
masters come in packets, and the multiplexer hands them on to the one slave. The grant is
a clock behind the arbiter and is kept to the end of a packet, and over locked ones.
-/

namespace NiosSnake

/-- What is at the sinks of a multiplexer, and whether its source is ready; `lock` is bit `PKT_TRANS_LOCK` of the
data, and the payload is all that belongs to a beat. -/
structure MuxInput (n m : Nat) where
  valid : BitVec n
  endofpacket : BitVec n
  lock : BitVec n
  payload : Nat → BitVec m
  srcReady : Bool

structure CmdMux (n : Nat) where
  savedGrant : BitVec n
  packetInProgress : Bool
  locked : BitVec n
  shareCount : BitVec 1
  shareCountZeroFlag : Bool
  arb : Arbitrator n

def muxSum {n m : Nat} (grant : BitVec n) (payload : Nat → BitVec m) : Nat → BitVec m
  | 0 => 0
  | k + 1 => muxSum grant payload k ||| if grant.getLsbD k then payload k else 0

namespace CmdMux

variable {n m : Nat}

def reset : CmdMux n := ⟨0, false, 0, 0, true, .reset⟩

def srcValid (s : CmdMux n) (i : MuxInput n m) : Bool := s.savedGrant &&& i.valid != 0

def srcPayload (s : CmdMux n) (i : MuxInput n m) : BitVec m := muxSum s.savedGrant i.payload n

def sinkReady (s : CmdMux n) (i : MuxInput n m) (k : Nat) : Bool := i.srcReady && s.savedGrant.getLsbD k

def lastCycle (s : CmdMux n) (i : MuxInput n m) : Bool :=
  s.srcValid i && i.srcReady && s.savedGrant &&& i.endofpacket != 0 && !(i.lock &&& s.savedGrant != 0)

def updateGrant (s : CmdMux n) (i : MuxInput n m) : Bool :=
  !s.packetInProgress && !s.srcValid i || s.lastCycle i && s.shareCountZeroFlag

def request (s : CmdMux n) (i : MuxInput n m) : BitVec n := i.valid ||| s.locked

def nextGrant (s : CmdMux n) (i : MuxInput n m) : BitVec n := s.arb.grant (s.request i)

/-- The shares are 1, so the counter is loaded with 0. -/
def nextGrantShare : BitVec 1 := 0

def p1ShareCount (s : CmdMux n) : BitVec 1 := if s.shareCountZeroFlag then 0 else s.shareCount - 1

def clock (s : CmdMux n) (i : MuxInput n m) : CmdMux n where
  savedGrant := if s.updateGrant i then s.nextGrant i else s.savedGrant
  packetInProgress := if s.lastCycle i then false else if s.srcValid i then true else s.packetInProgress
  locked := s.nextGrant i &&& i.lock
  shareCount := if s.updateGrant i then nextGrantShare else if s.lastCycle i then s.p1ShareCount else s.shareCount
  shareCountZeroFlag :=
    if s.updateGrant i then nextGrantShare == 0 else if s.lastCycle i then s.p1ShareCount == 0
    else s.shareCountZeroFlag
  arb := s.arb.clock (s.request i) (s.updateGrant i)

def run (e : Nat → MuxInput n m) : Nat → CmdMux n
  | 0 => reset
  | t + 1 => (run e t).clock (e t)

def accepts (s : CmdMux n) (i : MuxInput n m) (k : Nat) : Bool := i.valid.getLsbD k && s.sinkReady i k

def accepted (e : Nat → MuxInput n m) (k : Nat) : Nat → List (BitVec m)
  | 0 => []
  | t + 1 => accepted e k t ++ if (run e t).accepts (e t) k then [(e t).payload k] else []

def sent (e : Nat → MuxInput n m) : Nat → List (BitVec m)
  | 0 => []
  | t + 1 => sent e t ++ if (run e t).srcValid (e t) && (e t).srcReady then [(run e t).srcPayload (e t)] else []

/-! ## The turn -/

/-- The arbiter begins at `t`; this is after the sink that has the grant, if one has. -/
structure Turn (s : CmdMux n) (t : Nat) : Prop where
  lt : t < n
  top : s.arb.topPriorityReg = BitVec.twoPow n t
  grant : s.savedGrant = 0 ∨ ∃ g < n, s.savedGrant = BitVec.twoPow n g ∧ t = (g + 1) % n
  zero : s.shareCountZeroFlag = true

section
variable {s : CmdMux n} {i : MuxInput n m} {t : Nat}

theorem clock_zero (h : s.shareCountZeroFlag = true) : (s.clock i).shareCountZeroFlag = true := by
  simp only [clock, p1ShareCount, nextGrantShare, h]
  split
  · rfl
  · split <;> rfl

/-- The grant stays, or goes to the first request from `t` on, or to none. -/
theorem Turn.step (h : Turn s t) :
    (s.updateGrant i = false ∧ (s.clock i).savedGrant = s.savedGrant ∧ Turn (s.clock i) t) ∨
    (s.updateGrant i = true ∧ s.request i = 0 ∧ (s.clock i).savedGrant = 0 ∧ Turn (s.clock i) t) ∨
    (s.updateGrant i = true ∧ ∃ k, FirstAround (s.request i) t k ∧ (s.clock i).savedGrant = BitVec.twoPow n k ∧
      Turn (s.clock i) ((k + 1) % n)) := by
  cases hu : s.updateGrant i with
  | false =>
    have hgrant : (s.clock i).savedGrant = s.savedGrant := by simp [clock, hu]
    refine .inl ⟨rfl, hgrant, h.lt, ?_, ?_, clock_zero h.zero⟩
    · rw [← h.top]
      simp [clock, hu, Arbitrator.clock]
    · rw [hgrant]
      exact h.grant
  | true =>
    by_cases hr : s.request i = 0
    · have hgrant : (s.clock i).savedGrant = 0 := by
        simp only [clock, hu, if_true, nextGrant, Arbitrator.grant, hr, h.top]
        exact arbGrant_zero h.lt
      refine .inr (.inl ⟨rfl, hr, hgrant, h.lt, ?_, .inl hgrant, clock_zero h.zero⟩)
      rw [← h.top]
      simp [clock, hu, Arbitrator.clock, hr]
    · obtain ⟨k, hk⟩ := exists_firstAround (t := t) hr
      have hgrant : (s.clock i).savedGrant = BitVec.twoPow n k := by
        simp only [clock, hu, if_true, nextGrant, Arbitrator.grant, h.top]
        exact arbGrant_eq h.lt hk
      refine .inr (.inr ⟨rfl, k, hk, hgrant, Nat.mod_lt _ (Nat.zero_lt_of_lt hk.1), ?_, .inr ⟨k, hk.1, hgrant, rfl⟩,
        clock_zero h.zero⟩)
      simp only [clock, hu]
      exact Arbitrator.clock_eq h.lt h.top hk

end

theorem run_turn (hn : 0 < n) (e : Nat → MuxInput n m) : ∀ t, ∃ p, Turn (run e t) p
  | 0 => ⟨0, hn, BitVec.twoPow_zero.symm, .inl rfl, rfl⟩
  | t + 1 => by
    obtain ⟨p, hp⟩ := run_turn hn e t
    rcases hp.step (i := e t) with ⟨_, _, h⟩ | ⟨_, _, _, h⟩ | ⟨_, k, _, _, h⟩
    · exact ⟨p, h⟩
    · exact ⟨p, h⟩
    · exact ⟨_, h⟩

/-! ## One beat at a time -/

theorem muxSum_oneHot {g : Nat} (hg : g < n) (payload : Nat → BitVec m) :
    ∀ j, muxSum (BitVec.twoPow n g) payload j = if g < j then payload g else 0
  | 0 => rfl
  | j + 1 => by
    rw [muxSum, muxSum_oneHot hg payload j, BitVec.getLsbD_twoPow, decide_eq_true hg, Bool.true_and]
    rcases Nat.lt_trichotomy g j with hlt | rfl | hgt
    · simp [hlt, Nat.ne_of_lt hlt, show g < j + 1 by omega]
    · simp
    · simp [show ¬ g < j by omega, show ¬ g < j + 1 by omega, Nat.ne_of_gt hgt]

theorem twoPow_ne_zero {g : Nat} (hg : g < n) : BitVec.twoPow n g ≠ 0 := fun hz => by
  have hbit := congrArg (BitVec.getLsbD · g) hz
  simp [hg] at hbit

theorem and_twoPow_ne_zero {g : Nat} (hg : g < n) (v : BitVec n) :
    (BitVec.twoPow n g &&& v != 0) = v.getLsbD g := by
  have hand : BitVec.twoPow n g &&& v = if v.getLsbD g then BitVec.twoPow n g else 0 :=
    BitVec.twoPow_and v g
  rw [hand]
  cases v.getLsbD g
  · simp
  · simpa using twoPow_ne_zero hg

section
variable {s : CmdMux n} {i : MuxInput n m} {t g : Nat}

theorem srcValid_none (h : s.savedGrant = 0) : s.srcValid i = false := by
  simp [srcValid, h]

theorem srcValid_granted (hg : g < n) (h : s.savedGrant = BitVec.twoPow n g) : s.srcValid i = i.valid.getLsbD g := by
  rw [srcValid, h, and_twoPow_ne_zero hg]

theorem accepts_none (h : s.savedGrant = 0) (k : Nat) : s.accepts i k = false := by
  simp [accepts, sinkReady, h]

theorem accepts_granted (hg : g < n) (h : s.savedGrant = BitVec.twoPow n g) (k : Nat) :
    s.accepts i k = (decide (g = k) && (s.srcValid i && i.srcReady)) := by
  rw [accepts, sinkReady, srcValid_granted hg h, h, BitVec.getLsbD_twoPow, decide_eq_true hg, Bool.true_and]
  by_cases hgk : g = k
  · subst hgk
    simp
  · simp [hgk]

theorem srcPayload_granted (hg : g < n) (h : s.savedGrant = BitVec.twoPow n g) : s.srcPayload i = i.payload g := by
  rw [srcPayload, h, muxSum_oneHot hg, if_pos hg]

end

theorem Turn.handshake {s : CmdMux n} {p : Nat} (h : Turn s p) (i : MuxInput n m) :
    ((s.srcValid i && i.srcReady) = false ∧ ∀ k, s.accepts i k = false) ∨
    ∃ g < n, (s.srcValid i && i.srcReady) = true ∧ s.srcPayload i = i.payload g ∧ s.savedGrant = BitVec.twoPow n g ∧
      ∀ k, s.accepts i k = decide (g = k) := by
  rcases h.grant with hnone | ⟨g, hg, hgrant, _⟩
  · exact .inl ⟨by simp [srcValid_none hnone], accepts_none hnone⟩
  · cases hsent : s.srcValid i && i.srcReady with
    | false => exact .inl ⟨rfl, fun k => by rw [accepts_granted hg hgrant, hsent, Bool.and_false]⟩
    | true =>
      exact .inr ⟨g, hg, rfl, srcPayload_granted hg hgrant, hgrant,
        fun k => by rw [accepts_granted hg hgrant, hsent, Bool.and_true]⟩

/-- **The source is a merge of the sinks.** Whatever comes to the sinks, each beat that one of them gives goes
to the slave once, unchanged, and after the beats that this sink has given before. -/
theorem run_merges (hn : 0 < n) (e : Nat → MuxInput n m) : ∀ t, ∃ beats : List (Nat × BitVec m),
    beats.map Prod.snd = sent e t ∧ ∀ k, (beats.filter fun b => b.1 = k).map Prod.snd = accepted e k t
  | 0 => ⟨[], rfl, fun _ => rfl⟩
  | t + 1 => by
    obtain ⟨beats, hsent, haccepted⟩ := run_merges hn e t
    obtain ⟨p, hp⟩ := run_turn hn e t
    rcases hp.handshake (e t) with ⟨hnot, hnone⟩ | ⟨g, _, hbeat, hpayload, _, hsink⟩
    · refine ⟨beats, ?_, fun k => ?_⟩
      · simpa [sent, hnot] using hsent
      · simpa [accepted, hnone] using haccepted k
    · refine ⟨beats ++ [(g, (e t).payload g)], ?_, fun k => ?_⟩
      · simp [sent, hbeat, hpayload, hsent]
      · rw [List.filter_append, List.map_append, haccepted k, accepted, hsink k]
        by_cases hgk : g = k <;> simp [hgk]

def busy (_ : Nat) : MuxInput 2 8 := ⟨3, 3, 0, fun k => BitVec.ofNat 8 k, true⟩

theorem run_merges_busy : ∃ beats : List (Nat × BitVec 8), beats.map Prod.snd = sent busy 4 ∧
    ∀ k, (beats.filter fun b => b.1 = k).map Prod.snd = accepted busy k 4 :=
  run_merges (by decide) busy 4

/-! ## Whole packets -/

theorem clock_stays {s : CmdMux n} {i : MuxInput n m}
    (hin : s.packetInProgress = true ∨ s.srcValid i = true) (hlast : s.lastCycle i = false) :
    (s.clock i).savedGrant = s.savedGrant ∧ (s.clock i).packetInProgress = true := by
  have hu : s.updateGrant i = false := by
    rcases hin with hin | hin <;> simp [updateGrant, hin, hlast]
  refine ⟨by simp [clock, hu], ?_⟩
  rcases hin with hin | hin <;> simp [clock, hlast, hin]

theorem run_stays (e : Nat → MuxInput n m) {t : Nat} (hbeat : (run e t).srcValid (e t) = true) :
    ∀ {d : Nat}, (∀ j ≤ d, (run e (t + j)).lastCycle (e (t + j)) = false) →
      (run e (t + d + 1)).savedGrant = (run e t).savedGrant ∧ (run e (t + d + 1)).packetInProgress = true
  | 0, hlast => clock_stays (.inr hbeat) (hlast 0 (Nat.le_refl 0))
  | d + 1, hlast => by
    obtain ⟨hsame, hin⟩ := run_stays e hbeat fun j hj => hlast j (Nat.le_succ_of_le hj)
    obtain ⟨hnext, hin'⟩ := clock_stays (.inl hin) (hlast (d + 1) (Nat.le_refl _))
    exact ⟨hnext.trans hsame, hin'⟩

/-- **Packets stay whole.** From a beat of a sink up to the last cycle of its packet, also over locked packets,
only that sink gives beats. -/
theorem run_whole (hn : 0 < n) (e : Nat → MuxInput n m) {t d k k' : Nat}
    (hfirst : (run e t).accepts (e t) k = true) (hlast : ∀ j < d, (run e (t + j)).lastCycle (e (t + j)) = false)
    (hnext : (run e (t + d)).accepts (e (t + d)) k' = true) : k' = k := by
  obtain ⟨p, hp⟩ := run_turn hn e t
  rcases hp.handshake (e t) with ⟨_, hnone⟩ | ⟨g, hg, hbeat, _, hgrant, hsink⟩
  · rw [hnone k] at hfirst
    cases hfirst
  · have hvalid : (run e t).srcValid (e t) = true := (Bool.and_eq_true_iff.mp hbeat).1
    have hgk : g = k := of_decide_eq_true ((hsink k).symm.trans hfirst)
    have hsame : (run e (t + d)).savedGrant = BitVec.twoPow n g := by
      cases d with
      | zero => exact hgrant
      | succ d => exact (run_stays e hvalid fun j hj => hlast j (Nat.lt_succ_of_le hj)).1.trans hgrant
    rw [accepts_granted hg hsame, Bool.and_eq_true] at hnext
    exact (of_decide_eq_true hnext.1).symm.trans hgk

def twoBeats (t : Nat) : MuxInput 2 8 := ⟨3, if t % 2 = 0 then 3 else 0, 0, fun k => BitVec.ofNat 8 k, true⟩

theorem run_whole_twoBeats : (run twoBeats 2).accepts (twoBeats 2) 1 = false :=
  eq_false_of_ne_true fun h =>
    absurd (run_whole (by decide) twoBeats (t := 1) (d := 1) (k := 0) (by decide +kernel) (by decide +kernel) h)
      (by decide)

/-! ## Waiting -/

def Waits (s : CmdMux n) (i : MuxInput n m) (k : Nat) : Prop := i.valid.getLsbD k = true ∧ s.accepts i k = false

/-- How many grants it may take until sink `k` has one, when the arbiter begins at `t`. -/
def turns (s : CmdMux n) (t k : Nat) : Nat := if s.savedGrant.getLsbD k then 0 else around n t k + 1

def ahead (s : CmdMux n) (t k : Nat) : Nat := if s.savedGrant = 0 then around n t k else s.turns t k

section
variable {s : CmdMux n} {i : MuxInput n m} {t k : Nat}

theorem ahead_none (h : s.savedGrant = 0) : s.ahead t k = around n t k := if_pos h

theorem ahead_granted {g : Nat} (hg : g < n) (h : s.savedGrant = BitVec.twoPow n g) : s.ahead t k = s.turns t k :=
  if_neg (h ▸ twoPow_ne_zero hg)

theorem turns_self (hk : k < n) (h : s.savedGrant = BitVec.twoPow n k) : s.turns t k = 0 := by
  simp [turns, h, hk]

theorem turns_other (h : s.savedGrant.getLsbD k = false) : s.turns t k = around n t k + 1 := by
  simp [turns, h]

theorem granted_other {g : Nat} (h : s.savedGrant = BitVec.twoPow n g) (hne : g ≠ k) :
    s.savedGrant.getLsbD k = false := by
  simp [h, hne]

theorem Turn.turns_le (h : Turn s t) (hk : k < n) : s.turns t k ≤ n := by
  have hlt := around_lt h.lt hk
  unfold turns
  split <;> omega

theorem Turn.ahead_lt (h : Turn s t) (hk : k < n) : s.ahead t k < n := by
  rcases h.grant with hnone | ⟨g, hg, hgrant, rfl⟩
  · rw [ahead_none hnone]
    exact around_lt h.lt hk
  · rw [ahead_granted hg hgrant]
    by_cases hgk : g = k
    · subst hgk
      rw [turns_self hk hgrant]
      omega
    · rw [turns_other (granted_other hgrant hgk)]
      exact around_after hg hk (Ne.symm hgk)

theorem Turn.not_granted (h : Turn s t) (hwait : Waits s i k) (hu : s.updateGrant i = true) :
    s.savedGrant.getLsbD k = false := by
  rcases h.grant with hnone | ⟨g, hg, hgrant, _⟩
  · simp [hnone]
  · refine granted_other hgrant ?_
    rintro rfl
    have hvalid : s.srcValid i = true := by rw [srcValid_granted hg hgrant, hwait.1]
    have hnot := hwait.2
    rw [accepts_granted hg hgrant, hvalid, decide_eq_true rfl, Bool.true_and, Bool.true_and] at hnot
    simp [updateGrant, lastCycle, hvalid, hnot] at hu

/-- When the grant moves, a sink that waits comes nearer. -/
theorem Turn.moves (h : Turn s t) (hk : k < n) (hwait : Waits s i k) (hu : s.updateGrant i = true) :
    ∃ t', Turn (s.clock i) t' ∧ (s.clock i).turns t' k ≤ around n t k ∧
      (s.clock i).ahead t' k = (s.clock i).turns t' k := by
  rcases h.step (i := i) with ⟨hstays, _⟩ | ⟨_, hr, _⟩ | ⟨_, j, hj, hgrant, h'⟩
  · rw [hu] at hstays
    cases hstays
  · have hbit := congrArg (BitVec.getLsbD · k) hr
    simp [request, hwait.1] at hbit
  · refine ⟨(j + 1) % n, h', ?_, ahead_granted hj.1 hgrant⟩
    have hrequest : (s.request i).getLsbD k = true := by simp [request, hwait.1]
    by_cases hjk : j = k
    · subst hjk
      rw [turns_self hk hgrant]
      exact Nat.zero_le _
    · have hne : around n t j ≠ around n t k := fun heq => hjk (around_inj h.lt hj.1 hk heq)
      rw [turns_other (granted_other hgrant hjk)]
      exact around_next h.lt hj.1 hk (Nat.lt_of_le_of_ne (hj.2.2 k hk hrequest) hne)

theorem Turn.keeps (h : Turn s t) (hu : s.updateGrant i = false) (k : Nat) :
    Turn (s.clock i) t ∧ (s.clock i).turns t k = s.turns t k ∧ (s.clock i).ahead t k = s.ahead t k := by
  rcases h.step (i := i) with ⟨_, hgrant, h'⟩ | ⟨hmoves, _⟩ | ⟨hmoves, _⟩
  · exact ⟨h', by rw [turns, hgrant, ← turns], by rw [ahead, turns, hgrant, ← turns, ← ahead]⟩
  · rw [hu] at hmoves
    cases hmoves
  · rw [hu] at hmoves
    cases hmoves

theorem Turn.overtaken (h : Turn s t) (hk : k < n) (hwait : Waits s i k) :
    ∃ t', Turn (s.clock i) t' ∧ (s.clock i).ahead t' k + (if s.lastCycle i then 1 else 0) ≤ s.ahead t k := by
  cases hu : s.updateGrant i with
  | false =>
    obtain ⟨h', _, hsame⟩ := h.keeps hu k
    have hlast : s.lastCycle i = false := by
      simp only [updateGrant, h.zero, Bool.and_true, Bool.or_eq_false_iff] at hu
      exact hu.2
    refine ⟨t, h', ?_⟩
    rw [hsame, hlast]
    exact Nat.le_refl _
  | true =>
    obtain ⟨t', h', hnear, hahead⟩ := h.moves hk hwait hu
    have hnot := h.not_granted hwait hu
    refine ⟨t', h', ?_⟩
    rcases h.grant with hnone | ⟨g, hg, hgrant, _⟩
    · rw [hahead, ahead_none hnone, lastCycle, srcValid_none hnone]
      exact hnear
    · rw [hahead, ahead_granted hg hgrant, turns_other hnot]
      split <;> omega

end

/-- The packets that end count against those that are ahead. -/
theorem run_fewer (e : Nat → MuxInput n m) {t p k : Nat} (hp : Turn (run e t) p) (hk : k < n) :
    ∀ {d : Nat}, (∀ j < d, Waits (run e (t + j)) (e (t + j)) k) → ∃ p', Turn (run e (t + d)) p' ∧
      (run e (t + d)).ahead p' k + (List.range d).countP (fun j => (run e (t + j)).lastCycle (e (t + j))) ≤
        (run e t).ahead p k
  | 0, _ => ⟨p, hp, by simp⟩
  | d + 1, hwait => by
    obtain ⟨p', hp', hle⟩ := run_fewer e hp hk fun j hj => hwait j (Nat.lt_succ_of_lt hj)
    obtain ⟨p'', hp'', hnear⟩ := hp'.overtaken hk (hwait d (Nat.lt_succ_self d))
    refine ⟨p'', hp'', ?_⟩
    rw [List.range_succ, List.countP_append, List.countP_singleton]
    show ((run e (t + d)).clock (e (t + d))).ahead p'' k + _ ≤ _
    omega

/-- **A sink waits for few packets**: while it waits at most `n - 1` unlocked packets of others end, however long
they are. A locked packet keeps the grant for the packets after it, and they count as one. -/
theorem run_overtaken (e : Nat → MuxInput n m) {t d k : Nat} (hk : k < n)
    (hwait : ∀ j < d, Waits (run e (t + j)) (e (t + j)) k) :
    (List.range d).countP (fun j => (run e (t + j)).lastCycle (e (t + j))) ≤ n - 1 := by
  obtain ⟨p, hp⟩ := run_turn (Nat.zero_lt_of_lt hk) e t
  obtain ⟨p', _, hle⟩ := run_fewer e hp hk hwait
  have hlt := hp.ahead_lt hk
  omega

theorem run_overtaken_busy : (List.range 1).countP (fun j => (run busy (1 + j)).lastCycle (busy (1 + j))) ≤ 1 :=
  run_overtaken busy (k := 1) (by decide) (by simp only [Waits]; decide +kernel)

/-! ## Commands of one beat -/

def OneBeat (i : MuxInput n m) : Prop := i.endofpacket = BitVec.allOnes n ∧ i.lock = 0

def Persists (e : Nat → MuxInput n m) : Prop :=
  ∀ t k, Waits (run e t) (e t) k → (e (t + 1)).valid.getLsbD k = true

theorem OneBeat.lastCycle {i : MuxInput n m} (h : OneBeat i) {s : CmdMux n} {t : Nat} (hs : Turn s t) :
    s.lastCycle i = (s.srcValid i && i.srcReady) := by
  rcases hs.grant with hnone | ⟨g, hg, hgrant, _⟩
  · rw [CmdMux.lastCycle, srcValid_none hnone]
    simp
  · have heop : (s.savedGrant &&& i.endofpacket != 0) = true := by
      rw [h.1, hgrant, and_twoPow_ne_zero hg]
      simpa using hg
    have hlock : (i.lock &&& s.savedGrant != 0) = false := by simp [h.2]
    rw [CmdMux.lastCycle, heop, hlock]
    simp

section
variable {e : Nat → MuxInput n m} (hbeat : ∀ t, OneBeat (e t)) (hpersists : Persists e)
include hbeat hpersists

/-- A packet in progress is one that waits. -/
theorem run_inProgress (hn : 0 < n) : ∀ t, (run e t).packetInProgress = true → (run e t).srcValid (e t) = true
  | 0, h => by cases h
  | t + 1, h => by
    obtain ⟨p, hp⟩ := run_turn hn e t
    have ih := run_inProgress hn t
    have hlast := (hbeat t).lastCycle hp
    cases hvalid : (run e t).srcValid (e t) with
    | false =>
      rw [hvalid] at ih hlast
      have hin : (run e t).packetInProgress = false := eq_false_of_ne_true fun hc => by cases ih hc
      simp [run, clock, hlast, hvalid, hin] at h
    | true =>
      cases hready : (e t).srcReady with
      | true => simp [run, clock, hlast, hvalid, hready] at h
      | false =>
        -- the beat is not taken, so the grant stays and the beat too
        rw [hvalid, hready] at hlast
        have hgrant : (run e (t + 1)).savedGrant = (run e t).savedGrant := (clock_stays (.inr hvalid) hlast).1
        rcases hp.grant with hnone | ⟨g, hg, hold, _⟩
        · rw [srcValid_none hnone] at hvalid
          cases hvalid
        · rw [srcValid_granted hg hold] at hvalid
          rw [srcValid_granted hg (hgrant.trans hold)]
          exact hpersists t g ⟨hvalid, by rw [accepts, sinkReady, hready, Bool.false_and, Bool.and_false]⟩

theorem run_sooner {t p k : Nat} (hp : Turn (run e t) p) (hk : k < n) (hwait : Waits (run e t) (e t) k) :
    ∃ p', Turn (run e (t + 1)) p' ∧
      (run e (t + 1)).turns p' k + (if (e t).srcReady then 1 else 0) ≤ (run e t).turns p k := by
  have hin := run_inProgress hbeat hpersists (Nat.zero_lt_of_lt hk) t
  have hlast := (hbeat t).lastCycle hp
  cases hu : (run e t).updateGrant (e t) with
  | true =>
    obtain ⟨p', hp', hnear, _⟩ := hp.moves hk hwait hu
    refine ⟨p', hp', ?_⟩
    rw [turns_other (hp.not_granted hwait hu)]
    show ((run e t).clock (e t)).turns p' k + _ ≤ _
    split <;> omega
  | false =>
    obtain ⟨hp', hsame, _⟩ := hp.keeps hu k
    have hready : (e t).srcReady = false := by
      simp only [updateGrant, hp.zero, hlast, Bool.and_true, Bool.or_eq_false_iff] at hu
      cases hvalid : (run e t).srcValid (e t) with
      | true => simpa [hvalid] using hu.2
      | false =>
        have hidle := hu.1
        rw [hvalid, Bool.not_false, Bool.and_true, Bool.not_eq_false'] at hidle
        rw [hin hidle] at hvalid
        cases hvalid
    refine ⟨p, hp', ?_⟩
    show ((run e t).clock (e t)).turns p k + _ ≤ _
    rw [hsame, hready]
    exact Nat.le_refl _

theorem run_nearer {t p k : Nat} (hp : Turn (run e t) p) (hk : k < n) :
    ∀ {d : Nat}, (∀ j < d, Waits (run e (t + j)) (e (t + j)) k) → ∃ p', Turn (run e (t + d)) p' ∧
      (run e (t + d)).turns p' k + (List.range d).countP (fun j => (e (t + j)).srcReady) ≤ (run e t).turns p k
  | 0, _ => ⟨p, hp, by simp⟩
  | d + 1, hwait => by
    obtain ⟨p', hp', hle⟩ := run_nearer hp hk fun j hj => hwait j (Nat.lt_succ_of_lt hj)
    obtain ⟨p'', hp'', hnear⟩ := run_sooner hbeat hpersists hp' hk (hwait d (Nat.lt_succ_self d))
    refine ⟨p'', hp'', ?_⟩
    rw [List.range_succ, List.countP_append, List.countP_singleton]
    show (run e (t + d + 1)).turns p'' k + _ ≤ _
    omega

/-- **A sink is served in its turn**: with unlocked commands of one beat it waits for at most `n` clocks at which
the slave is ready. -/
theorem run_served {t d k : Nat} (hk : k < n) (hwait : ∀ j < d, Waits (run e (t + j)) (e (t + j)) k) :
    (List.range d).countP (fun j => (e (t + j)).srcReady) ≤ n := by
  obtain ⟨p, hp⟩ := run_turn (Nat.zero_lt_of_lt hk) e t
  obtain ⟨p', _, hle⟩ := run_nearer hbeat hpersists hp hk hwait
  have hlt := hp.turns_le hk
  omega

end

theorem run_served_busy : (List.range 2).countP (fun j => (busy (0 + j)).srcReady) ≤ 2 :=
  run_served (e := busy) (t := 0) (d := 2) (k := 1) (fun _ => ⟨rfl, rfl⟩) (fun _ k h => h.1) (by decide)
    (by simp only [Waits]; decide +kernel)

end CmdMux

end NiosSnake
