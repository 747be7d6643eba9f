import FastStore.Replication.RpcPackage

/-!
# Messages with a count and parts of one size

The responses to RPC requests, the pings that a leader gets and the status that it pushes all
start with a count, and their body length is compared with the length that the count stands for,
taken as an `int`.
-/

namespace FastStore.Replication

open FastStore.Util

/-! ## Reading the parts -/

/-- The loop over the parts: the spans that are read of a part, and what becomes of it; any other
result than zero ends the loop.  A part is named by its position. -/
def readParts (size : Int) (fields : Int → List Span) (deal : Int → Int) :
    Nat → Int → Decoded Int
  | 0, _ => ⟨0, [], []⟩
  | left + 1, pos =>
      Decoded.after (fields pos) <| Decoded.cons pos <|
        if deal pos = 0 then readParts size fields deal left (pos + size)
        else ⟨deal pos, [], []⟩

section Parts

variable {size : Int} {fields : Int → List Span} {deal : Int → Int}

/-- The parts before this one are all dealt with. -/
def Before (size : Int) (deal : Int → Int) (pos : Int) (i : Nat) : Prop :=
  ∀ j < i, deal (pos + size * (j : Int)) = 0

theorem before_succ {pos : Int} {i : Nat} :
    Before size deal pos (i + 1) ↔ deal pos = 0 ∧ Before size deal (pos + size) i := by
  have shift : ∀ j : Nat, pos + size * ((j + 1 : Nat) : Int) = pos + size + size * (j : Int) := by
    intro j
    push_cast
    ring
  constructor
  · intro before
    refine ⟨by simpa using before 0 (Nat.succ_pos i), fun j less => ?_⟩
    rw [← shift]
    exact before (j + 1) (Nat.succ_lt_succ less)
  · rintro ⟨first, later⟩ j less
    cases j with
    | zero => simpa using first
    | succ j =>
        rw [shift]
        exact later j (Nat.lt_of_succ_lt_succ less)

theorem readParts_result {left : Nat} {pos : Int} :
    (readParts size fields deal left pos).result = 0 ↔ Before size deal pos left := by
  induction left generalizing pos with
  | zero => exact ⟨fun _ j less => absurd less (Nat.not_lt_zero j), fun _ => rfl⟩
  | succ left ih =>
      rw [before_succ, readParts, ← ih]
      by_cases done : deal pos = 0
      · rw [if_pos done, and_iff_right done]
        rfl
      · rw [if_neg done]
        exact ⟨fun result => absurd result done, fun both => absurd both.1 done⟩

/-- A part is read when those before it have been dealt with. -/
theorem mem_reads_readParts {left : Nat} {pos : Int} {span : Span} :
    span ∈ (readParts size fields deal left pos).reads ↔
      ∃ i < left, Before size deal pos i ∧ span ∈ fields (pos + size * (i : Int)) := by
  induction left generalizing pos with
  | zero => simp [readParts]
  | succ left ih =>
      have shift : ∀ i : Nat, pos + size * ((i + 1 : Nat) : Int) = pos + size + size * (i : Int) := by
        intro i
        push_cast
        ring
      have parts : span ∈ (readParts size fields deal (left + 1) pos).reads ↔
          span ∈ fields pos ∨
            deal pos = 0 ∧ span ∈ (readParts size fields deal left (pos + size)).reads := by
        rw [readParts, Decoded.after, List.mem_append]
        by_cases done : deal pos = 0 <;> simp [done, Decoded.cons]
      rw [parts, ih]
      constructor
      · rintro (first | ⟨done, i, less, before, member⟩)
        · exact ⟨0, Nat.succ_pos left, fun j less => absurd less (Nat.not_lt_zero j),
            by simpa using first⟩
        · refine ⟨i + 1, Nat.succ_lt_succ less, before_succ.mpr ⟨done, before⟩, ?_⟩
          rw [shift]
          exact member
      · rintro ⟨i, less, before, member⟩
        cases i with
        | zero => exact Or.inl (by simpa using member)
        | succ i =>
            obtain ⟨done, later⟩ := before_succ.mp before
            rw [shift] at member
            exact Or.inr ⟨done, i, Nat.lt_of_succ_lt_succ less, later, member⟩

end Parts

/-! ## The readers -/

section Readers

variable (buff : Buffer) (bodyLen : Int)

/-- A part of a response; `err_no` is a `short`. -/
structure RpcRespPart where
  dataGroupId : Int
  dataVersion : Nat
  errNo : Int
  deriving DecidableEq, Repr

def respPartAt (pos : Int) : RpcRespPart :=
  ⟨buff2int buff (pos + 8), buff2long buff pos, buff2short buff (pos + 12)⟩

def respFields (pos : Int) : List Span := [⟨pos + 8, 4⟩, ⟨pos, 8⟩, ⟨pos + 12, 2⟩]

/-- What becomes of a part of a response; `deal` is `replication_processors_deal_rpc_response`. -/
def dealRespPart (deal : Int → Nat → Int) (pos : Int) : Int :=
  if (respPartAt buff pos).errNo ≠ 0 then (respPartAt buff pos).errNo
  else deal (respPartAt buff pos).dataGroupId (respPartAt buff pos).dataVersion

/-- `replica_deal_rpc_resp`. -/
def replicaDealRpcResp (deal : Int → Nat → Int) : Decoded Int :=
  if bodyLen < 24 then Decoded.invalid
  else
    let count := buff2int buff 0
    Decoded.after [⟨0, 4⟩] <|
      if bodyLen ≠ toInt (8 + 16 * count) then Decoded.invalid
      else readParts 16 respFields (dealRespPart buff deal) count.toNat 8

/-- The fields of a part of a ping; the others are read when the data server is known. -/
def pingFields (known : Int → Bool) (pos : Int) : List Span :=
  ⟨pos + 8, 4⟩ :: if known (buff2int buff (pos + 8)) then [⟨pos, 8⟩, ⟨pos + 12, 1⟩] else []

/-- `process_ping_leader_req`, after the check of the least length in `cluster_deal_ping_leader`;
the error is `SF_CLUSTER_ERROR_LEADER_VERSION_INCONSISTENT`. -/
def processPingLeaderReq (versionError : Int) (leaderVersion : Nat) (known : Int → Bool) :
    Decoded Int :=
  if bodyLen < 16 then Decoded.invalid
  else Decoded.after [⟨0, 8⟩] <|
    if buff2long buff 0 ≠ leaderVersion then ⟨versionError, [], []⟩
    else
      let dataGroupCount := buff2int buff 8
      Decoded.after [⟨8, 4⟩] <|
        if bodyLen ≠ toInt (16 + 16 * dataGroupCount) then Decoded.invalid
        else readParts 16 (pingFields buff known) (fun _ => 0) dataGroupCount.toNat 16

/-- The fields of a part of a push; the others are read when the data server is known. -/
def pushFields (known : Int → Int → Bool) (pos : Int) : List Span :=
  [⟨pos, 4⟩, ⟨pos + 4, 4⟩] ++
    if known (buff2int buff pos) (buff2int buff (pos + 4)) then
      [⟨pos + 16, 1⟩, ⟨pos + 17, 1⟩, ⟨pos + 8, 8⟩]
    else []

/-- `cluster_process_leader_push`; nothing is checked before the count is read. -/
def clusterProcessLeaderPush (known : Int → Int → Bool) : Decoded Int :=
  let dataServerCount := buff2int buff 8
  Decoded.after [⟨8, 4⟩] <|
    if toInt (16 + dataServerCount * 24) ≠ bodyLen then Decoded.invalid
    else Decoded.after [⟨0, 8⟩] <|
      readParts 24 (pushFields buff known) (fun _ => 0) dataServerCount.toNat 16

/-- The length that the count stands for is not that of the body only because it has wrapped, or
the message ends early at a part of the body that is refused. -/
def ResponseContained (deal : Int → Nat → Int) : Prop :=
  bodyLen < 24 ∨ bodyLen ≠ toInt (8 + 16 * buff2int buff 0) ∨ bodyLen = 8 + 16 * buff2int buff 0 ∨
    bodyLen < 8 + 16 * buff2int buff 0 ∧
      ∃ i : Nat, 8 + 16 * (i + 1 : Int) ≤ bodyLen ∧ dealRespPart buff deal (8 + 16 * (i : Int)) ≠ 0

def PingContained (leaderVersion : Nat) : Prop :=
  bodyLen < 16 ∨ buff2long buff 0 ≠ leaderVersion ∨
    bodyLen ≠ toInt (16 + 16 * buff2int buff 8) ∨ bodyLen = 16 + 16 * buff2int buff 8

def PushContained : Prop :=
  12 ≤ bodyLen ∧
    (bodyLen ≠ toInt (16 + 24 * buff2int buff 8) ∨ bodyLen = 16 + 24 * buff2int buff 8)

end Readers

/-! ## Safety -/

section Safety

variable (buff : Buffer) {bodyLen : Int}

/-- The parts that are reached lie in the body. -/
theorem readParts_within {size header : Int} {fields : Int → List Span} {deal : Int → Int}
    {left : Nat} (nonneg : 0 ≤ header) (wide : 0 < size)
    (spans : ∀ pos, ∀ span ∈ fields pos, pos ≤ span.pos ∧ span.pos + span.len ≤ pos + size)
    (inside : ∀ i : Nat, i < left → Before size deal header i → header + size * (i + 1) ≤ bodyLen) :
    ∀ span ∈ (readParts size fields deal left header).reads, span.Within bodyLen := by
  intro span member
  obtain ⟨i, less, before, field⟩ := mem_reads_readParts.mp member
  obtain ⟨low, high⟩ := spans _ span field
  have ends := inside i less before
  have step : size * ((i : Int) + 1) = size * (i : Int) + size := by ring
  have begins : 0 ≤ size * (i : Int) := mul_nonneg wide.le (Int.natCast_nonneg i)
  constructor
  · omega
  · omega

/-- A whole body of parts is read safely. -/
theorem readParts_safe_of_exact {size header count : Int} {fields : Int → List Span}
    {deal : Int → Int} (nonneg : 0 ≤ header) (wide : 0 < size)
    (spans : ∀ pos, ∀ span ∈ fields pos, pos ≤ span.pos ∧ span.pos + span.len ≤ pos + size)
    (exact : bodyLen = header + size * count) :
    (readParts size fields deal count.toNat header).Safe bodyLen
      (bodyLen = header + size * count) := by
  refine ⟨readParts_within nonneg wide spans fun i less _ => ?_, fun _ => exact⟩
  have bound : (i : Int) + 1 ≤ count := by omega
  have ends := mul_le_mul_of_nonneg_left bound wide.le
  omega

theorem respFields_span (pos : Int) :
    ∀ span ∈ respFields pos, pos ≤ span.pos ∧ span.pos + span.len ≤ pos + 16 := by
  simp only [respFields, List.mem_cons, List.not_mem_nil, or_false, forall_eq_or_imp, forall_eq]
  omega

theorem pingFields_span (known : Int → Bool) (pos : Int) :
    ∀ span ∈ pingFields buff known pos, pos ≤ span.pos ∧ span.pos + span.len ≤ pos + 16 := by
  unfold pingFields
  split_ifs
  · simp only [List.mem_cons, List.not_mem_nil, or_false, forall_eq_or_imp, forall_eq]
    omega
  · simp only [List.mem_singleton, forall_eq]
    omega

theorem pushFields_span (known : Int → Int → Bool) (pos : Int) :
    ∀ span ∈ pushFields buff known pos, pos ≤ span.pos ∧ span.pos + span.len ≤ pos + 24 := by
  unfold pushFields
  split_ifs
  · simp only [List.cons_append, List.nil_append, List.mem_cons, List.not_mem_nil, or_false,
      forall_eq_or_imp, forall_eq]
    omega
  · simp only [List.append_nil, List.mem_cons, List.not_mem_nil, or_false, forall_eq_or_imp,
      forall_eq]
    omega

theorem clusterProcessLeaderPush_safe_iff (known : Int → Int → Bool) :
    (clusterProcessLeaderPush buff bodyLen known).Safe bodyLen
        (bodyLen = 16 + 24 * buff2int buff 8) ↔ PushContained buff bodyLen := by
  have count : (∀ span ∈ [(⟨8, 4⟩ : Span)], span.Within bodyLen) ↔ 12 ≤ bodyLen := by
    simp only [List.mem_singleton, forall_eq, Span.Within]
    omega
  have version (least : 12 ≤ bodyLen) : ∀ span ∈ [(⟨0, 8⟩ : Span)], span.Within bodyLen := by
    simp only [List.mem_singleton, forall_eq, Span.Within]
    omega
  have length : toInt (16 + buff2int buff 8 * 24) = toInt (16 + 24 * buff2int buff 8) := by
    rw [mul_comm]
  rw [clusterProcessLeaderPush, PushContained, Decoded.safe_after, count, length]
  refine and_congr_right fun least => ?_
  by_cases differs : bodyLen ≠ toInt (16 + 24 * buff2int buff 8)
  · rw [if_pos differs.symm]
    exact ⟨fun _ => Or.inl differs, fun _ => Decoded.safe_invalid _ _⟩
  · rw [if_neg fun other => differs other.symm, or_iff_right differs]
    constructor
    · intro safe
      exact (Decoded.safe_after.mp safe).2.accepts (readParts_result.mpr fun _ _ => rfl)
    · intro exact
      exact Decoded.safe_after.mpr ⟨version least, readParts_safe_of_exact (by decide) (by decide)
        (pushFields_span buff known) exact⟩

theorem processPingLeaderReq_safe_iff {versionError : Int} (failure : versionError ≠ 0)
    (leaderVersion : Nat) (known : Int → Bool) :
    (processPingLeaderReq buff bodyLen versionError leaderVersion known).Safe bodyLen
        (bodyLen = 16 + 16 * buff2int buff 8) ↔ PingContained buff bodyLen leaderVersion := by
  rw [processPingLeaderReq, PingContained]
  by_cases short : bodyLen < 16
  · rw [if_pos short]
    exact ⟨fun _ => Or.inl short, fun _ => Decoded.safe_invalid _ _⟩
  · have version : ∀ span ∈ [(⟨0, 8⟩ : Span)], span.Within bodyLen := by
      simp only [List.mem_singleton, forall_eq, Span.Within]
      omega
    have count : ∀ span ∈ [(⟨8, 4⟩ : Span)], span.Within bodyLen := by
      simp only [List.mem_singleton, forall_eq, Span.Within]
      omega
    rw [if_neg short, or_iff_right short, Decoded.safe_after, and_iff_right version]
    by_cases other : buff2long buff 0 ≠ leaderVersion
    · rw [if_pos other]
      exact ⟨fun _ => Or.inl other, fun _ => Decoded.safe_failed failure _ _ _⟩
    · rw [if_neg other, or_iff_right other, Decoded.safe_after, and_iff_right count]
      by_cases differs : bodyLen ≠ toInt (16 + 16 * buff2int buff 8)
      · rw [if_pos differs]
        exact ⟨fun _ => Or.inl differs, fun _ => Decoded.safe_invalid _ _⟩
      · rw [if_neg differs, or_iff_right differs]
        constructor
        · intro safe
          exact safe.accepts (readParts_result.mpr fun _ _ => rfl)
        · intro exact
          exact readParts_safe_of_exact (by decide) (by decide) (pingFields_span buff known) exact

/-- A response whose length has wrapped is safe only if it ends at a part of the body. -/
theorem respParts_safe_iff (deal : Int → Nat → Int) (most : bodyLen < 2147483648)
    (passes : bodyLen = toInt (8 + 16 * buff2int buff 0)) (least : 24 ≤ bodyLen) :
    (readParts 16 respFields (dealRespPart buff deal) (buff2int buff 0).toNat 8).Safe bodyLen
        (bodyLen = 8 + 16 * buff2int buff 0) ↔
      bodyLen = 8 + 16 * buff2int buff 0 ∨ bodyLen < 8 + 16 * buff2int buff 0 ∧
        ∃ i : Nat, 8 + 16 * (i + 1 : Int) ≤ bodyLen ∧
          dealRespPart buff deal (8 + 16 * (i : Int)) ≠ 0 := by
  have spec := toInt_spec (8 + 16 * buff2int buff 0)
  constructor
  · intro safe
    refine or_iff_not_imp_left.mpr fun wrapped => ?_
    have failed : ¬Before 16 (dealRespPart buff deal) 8 (buff2int buff 0).toNat :=
      fun all => wrapped (safe.accepts (readParts_result.mpr all))
    have behind : bodyLen < 8 + 16 * buff2int buff 0 := by
      by_contra within
      have none : (buff2int buff 0).toNat = 0 := by omega
      rw [none] at failed
      exact failed fun j less => absurd less (Nat.not_lt_zero j)
    refine ⟨behind, ?_⟩
    by_contra accepted
    push Not at accepted
    -- the first part behind the body is read
    have before : Before 16 (dealRespPart buff deal) 8 ((bodyLen - 8) / 16).toNat := by
      intro j less
      exact accepted j (by omega)
    have read := safe.reads ⟨8 + 16 * (((bodyLen - 8) / 16).toNat : Int) + 8, 4⟩
      (mem_reads_readParts.mpr ⟨_, by omega, before, List.mem_cons_self⟩)
    simp only [Span.Within] at read
    omega
  · rintro (exact | ⟨behind, i, inside, refused⟩)
    · exact readParts_safe_of_exact (by decide) (by decide) respFields_span exact
    · constructor
      · refine readParts_within (by decide) (by decide) respFields_span fun j _ before => ?_
        have reached : ¬i < j := fun less => refused (before i less)
        omega
      · intro done
        exact absurd (readParts_result.mp done i (by omega)) refused

theorem replicaDealRpcResp_safe_iff (deal : Int → Nat → Int) (most : bodyLen < 2147483648) :
    (replicaDealRpcResp buff bodyLen deal).Safe bodyLen (bodyLen = 8 + 16 * buff2int buff 0) ↔
      ResponseContained buff bodyLen deal := by
  rw [replicaDealRpcResp, ResponseContained]
  by_cases short : bodyLen < 24
  · rw [if_pos short]
    exact ⟨fun _ => Or.inl short, fun _ => Decoded.safe_invalid _ _⟩
  · have count : ∀ span ∈ [(⟨0, 4⟩ : Span)], span.Within bodyLen := by
      simp only [List.mem_singleton, forall_eq, Span.Within]
      omega
    rw [if_neg short, or_iff_right short, Decoded.safe_after, and_iff_right count]
    by_cases differs : bodyLen ≠ toInt (8 + 16 * buff2int buff 0)
    · rw [if_pos differs]
      exact ⟨fun _ => Or.inl differs, fun _ => Decoded.safe_invalid _ _⟩
    · rw [if_neg differs, or_iff_right differs]
      exact respParts_safe_iff buff deal most (not_not.mp differs) (not_lt.mp short)

end Safety

/-- The packages of a queue and the readers of counted messages: a package is decoded to the
entries it was made of, in their order over successive packages, and a reader stays in its body
and accepts exact bodies alone, exactly while no length wraps and no part is begun that the body
does not hold. -/
theorem rpc_packages_iff {proto size bodyLen : Int} (nonneg : 0 ≤ proto)
    (bufferMost : size < 2147483648) (bodyMost : bodyLen < 2147483648) :
    (∀ buff queue, queue ≠ [] → (∀ part ∈ queue, part.Fits proto size) →
      (RoundTrips proto size buff queue ↔ Countable size queue (proto + 8))) ∧
    (∀ s, Reachable ((RpcSender.step proto size).guarded (RpcSender.Counts proto size))
      (· = RpcSender.start) s → s.InOrder) ∧
    (∀ buff deal, (replicaDealRpcReq buff bodyLen deal).Safe bodyLen
        (0 < buff2int buff 0 ∧ CompleteParts buff bodyLen (buff2int buff 0).toNat 8) ↔
      RequestContained buff bodyLen deal) ∧
    (∀ buff deal, (replicaDealRpcResp buff bodyLen deal).Safe bodyLen
        (bodyLen = 8 + 16 * buff2int buff 0) ↔ ResponseContained buff bodyLen deal) ∧
    (∀ buff versionError leaderVersion known, versionError ≠ 0 →
      ((processPingLeaderReq buff bodyLen versionError leaderVersion known).Safe bodyLen
        (bodyLen = 16 + 16 * buff2int buff 8) ↔ PingContained buff bodyLen leaderVersion)) ∧
    ∀ buff known, (clusterProcessLeaderPush buff bodyLen known).Safe bodyLen
        (bodyLen = 16 + 24 * buff2int buff 8) ↔ PushContained buff bodyLen := by
  refine ⟨?_, ?_, ?_, ?_, ?_, ?_⟩
  · exact fun buff queue present fits => roundTrips_iff nonneg bufferMost buff present fits
  · exact fun s reached => RpcSender.inOrder_of_reachable proto size nonneg bufferMost reached
  · exact fun buff deal => replicaDealRpcReq_safe_iff buff deal bodyMost
  · exact fun buff deal => replicaDealRpcResp_safe_iff buff deal bodyMost
  · exact fun buff versionError leaderVersion known failure =>
      processPingLeaderReq_safe_iff buff failure leaderVersion known
  · exact fun buff known => clusterProcessLeaderPush_safe_iff buff known

/-- Two deletes of a block in a buffer that holds one of them. -/
theorem rpc_packages_two :
    RoundTrips 12 60 (fun _ => 255)
      [⟨33, 5, long2buff 1 ++ long2buff 0⟩, ⟨33, 6, long2buff 1 ++ long2buff 4194304⟩] := by
  refine ((@rpc_packages_iff 12 60 40 (by decide) (by decide) (by decide)).1 _ _ (by decide) ?_).mpr
    ?_
  · intro part member
    simp only [List.mem_cons, List.not_mem_nil, or_false] at member
    rcases member with rfl | rfl
    · exact ⟨by decide, by decide, by decide⟩
    · exact ⟨by decide, by decide, by decide⟩
  · exact ⟨by decide, fun _ => ⟨by decide, fun full => absurd full (by decide)⟩⟩

/-- A request of 40 bytes that says it has two parts; the first one, the delete of a block, takes
all of them. -/
def overfullRequest : Buffer := fun i =>
  ((int2buff 2 ++ [0, 0, 0, 0] ++ long2buff 5 ++ int2buff 16 ++ [33, 0, 0, 0] ++ long2buff 1 ++
    long2buff 0)[i.toNat]?).getD 0

/-- The length of the second part is read behind the body. -/
theorem rpc_request_read_behind :
    ¬(replicaDealRpcReq overfullRequest 40 fun _ => 0).Safe 40
      (0 < buff2int overfullRequest 0 ∧
        CompleteParts overfullRequest 40 (buff2int overfullRequest 0).toNat 8) := by
  intro safe
  have read := safe.reads ⟨48, 4⟩ (by decide +kernel)
  exact absurd read (by decide)

end FastStore.Replication
