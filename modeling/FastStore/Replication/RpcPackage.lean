import FastStore.Util.System
import FastStore.Util.Wire

/-!
# RPC packages

`replication_rpc_from_queue` takes the queue of a slave and packs as many entries as the buffer
of the task holds: a count, and for each entry its data version, length, command and body.  The
rest goes back to the head of the queue.  `replica_deal_rpc_req` and `handle_rpc_req` take such a
package apart.  All lengths are `int`s.
-/

namespace FastStore.Replication

open FastStore.Util

/-- What an entry of the queue sends, and what a part of a package is handed on as. -/
structure RpcPart where
  cmd : UInt8
  dataVersion : Nat
  body : List UInt8
  deriving DecidableEq, Repr

/-- The bytes of a part: `sizeof(FSProtoReplicaRPCReqBodyPart)` and its body. -/
def RpcPart.len (part : RpcPart) : Int := 16 + part.body.length

/-! ## `replication_rpc_from_queue` -/

/-- A part written at a position of the body; its padding keeps the old bytes. -/
def putPart (buff : Buffer) (pos : Int) (rb : RpcPart) : Buffer :=
  (((buff.put (pos + 12) [rb.cmd]).put (pos + 16) rb.body).put pos
    (long2buff rb.dataVersion)).put (pos + 8) (int2buff rb.body.length)

/-- What the loop has made of a queue: the entries in the package, those that are left, the
buffer and `task->length`. -/
structure RpcFill where
  packed : List RpcPart
  rest : List RpcPart
  buff : Buffer
  length : Int

/-- The loop; `proto` is `sizeof(FSProtoHeader)` and `size` is `task->size`. -/
def fillPackage (proto size : Int) : List RpcPart → Buffer → Int → RpcFill
  | [], buff, length => ⟨[], [], buff, length⟩
  | rb :: rest, buff, length =>
      let pkgLen := toInt (length + 16 + rb.body.length)
      if size < pkgLen then ⟨[], rb :: rest, buff, length⟩
      else
        let filled := fillPackage proto size rest (putPart buff (length - proto) rb) pkgLen
        ⟨rb :: filled.packed, filled.rest, filled.buff, filled.length⟩

/-- A package as it is sent. -/
structure RpcPackage where
  packed : List RpcPart
  buff : Buffer
  bodyLen : Int

/-- `replication_rpc_from_queue` on the entries that it has popped: the package, unless it has no
entry, and what goes back to the head of the queue. -/
def replicationRpcFromQueue (proto size : Int) (buff : Buffer) (queue : List RpcPart) :
    Option RpcPackage × List RpcPart :=
  let filled := fillPackage proto size queue buff (proto + 8)
  (if filled.packed = [] then none
    else some ⟨filled.packed, filled.buff.put 0 (int2buff filled.packed.length),
      filled.length - proto⟩, filled.rest)

/-! ## `replica_deal_rpc_req` -/

/-- What a reader of a message does: its result, the parts that it hands on, and the spans of the
message that it reads or hands on. -/
structure Decoded (α : Type) where
  result : Int
  parts : List α
  reads : List Span

/-- The message is refused with `EINVAL`. -/
def Decoded.invalid {α : Type} : Decoded α := ⟨22, [], []⟩

/-- Something is read before the rest is done. -/
def Decoded.after {α : Type} (reads : List Span) (decoded : Decoded α) : Decoded α :=
  { decoded with reads := reads ++ decoded.reads }

/-- A part is handed on before the rest is done. -/
def Decoded.cons {α : Type} (part : α) (decoded : Decoded α) : Decoded α :=
  { decoded with parts := part :: decoded.parts }

section Request

variable (buff : Buffer) (bodyLen : Int) (deal : RpcPart → Int)

/-- The part at a position. -/
def partAt (pos : Int) : RpcPart :=
  ⟨buff (pos + 12), buff2long buff pos, buff.bytesAt (pos + 16) (buff2int buff (pos + 8)).toNat⟩

/-- A round of `handle_rpc_req` whose length has passed; `deal` is what becomes of a part, zero
also for one that is in progress. -/
def takePart (currentLen : Int) (rest : Decoded RpcPart) : Decoded RpcPart :=
  Decoded.after [⟨currentLen + 12, 1⟩, ⟨currentLen, 8⟩] <|
    if buff2long buff currentLen = 0 then Decoded.invalid
    else Decoded.after [⟨currentLen + 16, buff2int buff (currentLen + 8)⟩] <|
      Decoded.cons (partAt buff currentLen) <|
        if deal (partAt buff currentLen) = 0 then rest
        else ⟨deal (partAt buff currentLen), [], []⟩

/-- The loop of `handle_rpc_req` with so many parts to go.  The length is read before it is known
that the part is there; the command and the version are read when the length has passed. -/
def handleRpcReq : Nat → Int → Decoded RpcPart
  | 0, _ => ⟨0, [], []⟩
  | left + 1, currentLen =>
      let blen := buff2int buff (currentLen + 8)
      Decoded.after [⟨currentLen + 8, 4⟩] <|
        if blen ≤ 0 then Decoded.invalid
        else
          let next := toInt (currentLen + 16 + blen)
          if left = 0 then
            if bodyLen ≠ next then Decoded.invalid
            else takePart buff deal currentLen (handleRpcReq left next)
          else
            if bodyLen < next then Decoded.invalid
            else takePart buff deal currentLen (handleRpcReq left next)

/-- `replica_deal_rpc_req`. -/
def replicaDealRpcReq : Decoded RpcPart :=
  if bodyLen < 24 then Decoded.invalid
  else
    let count := buff2int buff 0
    Decoded.after [⟨0, 4⟩] <|
      if count ≤ 0 then Decoded.invalid
      else if bodyLen < toInt (8 + 16 * count) then Decoded.invalid
      else handleRpcReq buff bodyLen deal count.toNat 8

/-- The body from a position on is this many complete parts of positive length. -/
def CompleteParts : Nat → Int → Prop
  | 0, pos => pos = bodyLen
  | left + 1, pos =>
      0 < buff2int buff (pos + 8) ∧
        CompleteParts left (pos + 16 + buff2int buff (pos + 8))

/-- Every part that the accepted parts before it lead to has its length field in the body, and
none but the last carries the running length to 2^31 (or it is refused for its version). -/
def PartsContained : Nat → Int → Prop
  | 0, _ => True
  | left + 1, pos =>
      pos + 12 ≤ bodyLen ∧
        (0 < buff2int buff (pos + 8) → left ≠ 0 →
          (pos + 16 + buff2int buff (pos + 8) < 2147483648 ∨
            buff2long buff pos = 0 ∧ pos + 13 ≤ bodyLen) ∧
          (pos + 16 + buff2int buff (pos + 8) ≤ bodyLen → buff2long buff pos ≠ 0 →
            deal (partAt buff pos) = 0 →
              PartsContained left (pos + 16 + buff2int buff (pos + 8))))

/-- A request that is refused by its count, or whose parts are contained. -/
def RequestContained : Prop :=
  bodyLen < 24 ∨ buff2int buff 0 ≤ 0 ∨ bodyLen < toInt (8 + 16 * buff2int buff 0) ∨
    PartsContained buff bodyLen deal (buff2int buff 0).toNat 8

end Request

/-! ## Safety of the request reader -/

namespace Decoded

variable {α : Type}

/-- Every position that is read or handed on is below `body_len`, and an accepted body is as it
should be. -/
structure Safe (decoded : Decoded α) (bodyLen : Int) (exact : Prop) : Prop where
  reads : ∀ span ∈ decoded.reads, span.Within bodyLen
  accepts : decoded.result = 0 → exact

theorem safe_after {spans : List Span} {decoded : Decoded α} {bodyLen : Int} {exact : Prop} :
    (decoded.after spans).Safe bodyLen exact ↔
      (∀ span ∈ spans, span.Within bodyLen) ∧ decoded.Safe bodyLen exact := by
  constructor
  · rintro ⟨reads, accepts⟩
    exact ⟨fun span member => reads span (List.mem_append_left _ member),
      fun span member => reads span (List.mem_append_right _ member), accepts⟩
  · rintro ⟨before, reads, accepts⟩
    refine ⟨fun span member => ?_, accepts⟩
    rcases List.mem_append.mp member with early | late
    · exact before span early
    · exact reads span late

theorem safe_cons {part : α} {decoded : Decoded α} {bodyLen : Int} {exact : Prop} :
    (decoded.cons part).Safe bodyLen exact ↔ decoded.Safe bodyLen exact :=
  ⟨fun ⟨reads, accepts⟩ => ⟨reads, accepts⟩, fun ⟨reads, accepts⟩ => ⟨reads, accepts⟩⟩

/-- A reader that stops with an error is safe. -/
theorem safe_failed {result : Int} (failed : result ≠ 0) (parts : List α) (bodyLen : Int)
    (exact : Prop) : (⟨result, parts, []⟩ : Decoded α).Safe bodyLen exact :=
  ⟨fun _ member => absurd member List.not_mem_nil, fun done => absurd done failed⟩

theorem safe_invalid (bodyLen : Int) (exact : Prop) :
    (Decoded.invalid : Decoded α).Safe bodyLen exact :=
  safe_failed (by decide) [] bodyLen exact

theorem safe_congr {decoded : Decoded α} {bodyLen : Int} {exact other : Prop}
    (same : exact ↔ other) : decoded.Safe bodyLen exact ↔ decoded.Safe bodyLen other := by
  rw [propext same]

end Decoded

section Request

variable (buff : Buffer) {bodyLen : Int} (deal : RpcPart → Int)

/-- A part whose end is in the body is read safely if the rest is. -/
theorem takePart_safe_iff {pos : Int} (nonneg : 0 ≤ pos)
    (positive : 0 < buff2int buff (pos + 8))
    (inside : pos + 16 + buff2int buff (pos + 8) ≤ bodyLen) (rest : Decoded RpcPart)
    (exact : Prop) :
    (takePart buff deal pos rest).Safe bodyLen exact ↔
      (buff2long buff pos ≠ 0 → deal (partAt buff pos) = 0 → rest.Safe bodyLen exact) := by
  have fields : ∀ span ∈ [(⟨pos + 12, 1⟩ : Span), ⟨pos, 8⟩], span.Within bodyLen := by
    simp only [List.mem_cons, List.not_mem_nil, or_false, forall_eq_or_imp, forall_eq, Span.Within]
    omega
  have body : ∀ span ∈ [(⟨pos + 16, buff2int buff (pos + 8)⟩ : Span)], span.Within bodyLen := by
    simp only [List.mem_singleton, forall_eq, Span.Within]
    omega
  rw [takePart, Decoded.safe_after, and_iff_right fields]
  by_cases noVersion : buff2long buff pos = 0
  · rw [if_pos noVersion]
    exact ⟨fun _ version => absurd noVersion version,
      fun _ => Decoded.safe_invalid _ _⟩
  · rw [if_neg noVersion, Decoded.safe_after, and_iff_right body, Decoded.safe_cons]
    by_cases accepted : deal (partAt buff pos) = 0
    · rw [if_pos accepted]
      exact ⟨fun safe _ _ => safe, fun safe => safe noVersion accepted⟩
    · rw [if_neg accepted]
      exact ⟨fun _ _ done => absurd done accepted,
        fun _ => Decoded.safe_failed accepted _ _ _⟩

/-- A part that ends behind the body is not read safely, unless it is refused for its version. -/
theorem takePart_behind {pos : Int} (nonneg : 0 ≤ pos)
    (behind : bodyLen < pos + 16 + buff2int buff (pos + 8)) (rest : Decoded RpcPart)
    (exact : Prop) :
    (takePart buff deal pos rest).Safe bodyLen exact ↔
      buff2long buff pos = 0 ∧ pos + 13 ≤ bodyLen := by
  rw [takePart, Decoded.safe_after]
  by_cases noVersion : buff2long buff pos = 0
  · rw [if_pos noVersion, and_iff_left (Decoded.safe_invalid _ _),
      and_iff_right noVersion]
    simp only [List.mem_cons, List.not_mem_nil, or_false, forall_eq_or_imp, forall_eq, Span.Within]
    omega
  · rw [if_neg noVersion, Decoded.safe_after]
    constructor
    · rintro ⟨_, body, _⟩
      have within := body _ List.mem_cons_self
      simp only [Span.Within] at within
      omega
    · exact fun refused => absurd refused.1 noVersion

/-- From a position in the body, the loop is safe exactly when the parts are contained. -/
theorem handleRpcReq_safe_iff (least : 24 ≤ bodyLen) (most : bodyLen < 2147483648) {left : Nat}
    {pos : Int} (nonneg : 0 ≤ pos) (inside : pos ≤ bodyLen) (ended : left = 0 → pos = bodyLen) :
    (handleRpcReq buff bodyLen deal left pos).Safe bodyLen (CompleteParts buff bodyLen left pos) ↔
      PartsContained buff bodyLen deal left pos := by
  induction left generalizing pos with
  | zero => exact ⟨fun _ => trivial, fun _ => ⟨by simp [handleRpcReq], fun _ => ended rfl⟩⟩
  | succ left ih =>
      have field := (buff2int_spec buff (pos + 8)).2
      have spec := toInt_spec (pos + 16 + buff2int buff (pos + 8))
      have head : (∀ span ∈ [(⟨pos + 8, 4⟩ : Span)], span.Within bodyLen) ↔ pos + 12 ≤ bodyLen := by
        simp only [List.mem_singleton, forall_eq, Span.Within]
        omega
      rw [handleRpcReq, PartsContained, Decoded.safe_after, head]
      refine and_congr_right fun hasLength => ?_
      by_cases positive : buff2int buff (pos + 8) ≤ 0
      · rw [if_pos positive]
        exact ⟨fun _ full => absurd full (not_lt.mpr positive),
          fun _ => Decoded.safe_invalid _ _⟩
      · have full : 0 < buff2int buff (pos + 8) := not_le.mp positive
        have exact : CompleteParts buff bodyLen (left + 1) pos ↔
            CompleteParts buff bodyLen left (pos + 16 + buff2int buff (pos + 8)) :=
          and_iff_right full
        rw [if_neg positive, forall_prop_of_true full, Decoded.safe_congr exact]
        by_cases last : left = 0
        · -- the last part is checked to end with the body
          rw [if_pos last]
          refine ⟨fun _ more => absurd last more, fun _ => ?_⟩
          split_ifs with differs
          · exact Decoded.safe_invalid _ _
          · have ends : pos + 16 + buff2int buff (pos + 8) = bodyLen := by omega
            rw [takePart_safe_iff buff deal nonneg full ends.le]
            intro _ _
            subst last
            exact ⟨by simp [handleRpcReq], fun _ => ends⟩
        · rw [if_neg last, forall_prop_of_true last]
          by_cases wraps : 2147483648 ≤ pos + 16 + buff2int buff (pos + 8)
          · -- the running length is negative or small and passes
            have passes : ¬bodyLen < toInt (pos + 16 + buff2int buff (pos + 8)) := by omega
            rw [if_neg passes, takePart_behind buff deal nonneg (by omega)]
            constructor
            · exact fun refused => ⟨Or.inr refused, fun ends => by omega⟩
            · rintro ⟨short | refused, _⟩
              · omega
              · exact refused
          · have same : toInt (pos + 16 + buff2int buff (pos + 8)) =
                pos + 16 + buff2int buff (pos + 8) := by omega
            rw [same, and_iff_right (Or.inl (not_le.mp wraps))]
            by_cases behind : bodyLen < pos + 16 + buff2int buff (pos + 8)
            · rw [if_pos behind]
              exact ⟨fun _ ends => absurd behind (not_lt.mpr ends),
                fun _ => Decoded.safe_invalid _ _⟩
            · have ends := not_lt.mp behind
              rw [if_neg behind, takePart_safe_iff buff deal nonneg full ends,
                forall_prop_of_true ends]
              refine forall_congr' fun _ => forall_congr' fun _ => ?_
              exact ih (by omega) ends fun none => absurd none last

/-- For every body and every length, the reader of requests is safe exactly when the request is
contained. -/
theorem replicaDealRpcReq_safe_iff (most : bodyLen < 2147483648) :
    (replicaDealRpcReq buff bodyLen deal).Safe bodyLen
        (0 < buff2int buff 0 ∧ CompleteParts buff bodyLen (buff2int buff 0).toNat 8) ↔
      RequestContained buff bodyLen deal := by
  rw [replicaDealRpcReq, RequestContained]
  by_cases short : bodyLen < 24
  · rw [if_pos short]
    exact ⟨fun _ => Or.inl short, fun _ => Decoded.safe_invalid _ _⟩
  · have least := not_lt.mp short
    have head : ∀ span ∈ [(⟨0, 4⟩ : Span)], span.Within bodyLen := by
      simp only [List.mem_singleton, forall_eq, Span.Within]
      omega
    rw [if_neg short, Decoded.safe_after, and_iff_right head, or_iff_right short]
    by_cases empty : buff2int buff 0 ≤ 0
    · rw [if_pos empty]
      exact ⟨fun _ => Or.inl empty, fun _ => Decoded.safe_invalid _ _⟩
    · rw [if_neg empty, or_iff_right empty]
      by_cases few : bodyLen < toInt (8 + 16 * buff2int buff 0)
      · rw [if_pos few]
        exact ⟨fun _ => Or.inl few, fun _ => Decoded.safe_invalid _ _⟩
      · rw [if_neg few, or_iff_right few,
          Decoded.safe_congr (and_iff_right (not_le.mp empty))]
        exact handleRpcReq_safe_iff buff deal least most (by decide) (by omega) fun none => by omega

end Request

/-! ## The round trip -/

/-- The bytes of some parts. -/
def partsLen (parts : List RpcPart) : Int := (parts.map RpcPart.len).sum

@[simp] theorem partsLen_cons (part : RpcPart) (parts : List RpcPart) :
    partsLen (part :: parts) = part.len + partsLen parts := by
  simp [partsLen]

theorem partsLen_ge (parts : List RpcPart) : 16 * (parts.length : Int) ≤ partsLen parts := by
  induction parts with
  | nil => exact le_rfl
  | cons part rest ih =>
      rw [partsLen_cons, RpcPart.len, List.length_cons]
      push_cast
      omega

/-- An entry that fits the buffer by itself, with a body and a version. -/
structure RpcPart.Fits (proto size : Int) (part : RpcPart) : Prop where
  body : 0 < part.body.length
  version : 0 < part.dataVersion ∧ part.dataVersion < 2 ^ 64
  room : proto + 8 + part.len ≤ size

/-- The running length of the package does not pass 2^31, up to the first entry that does not fit
any more. -/
def Countable (size : Int) : List RpcPart → Int → Prop
  | [], _ => True
  | rb :: rest, length =>
      length + rb.len < 2147483648 ∧ (length + rb.len ≤ size → Countable size rest (length + rb.len))

/-- The parts lie one after another in the buffer. -/
def Stored (buff : Buffer) : Int → List RpcPart → Prop
  | _, [] => True
  | pos, rb :: rest =>
      partAt buff pos = rb ∧ buff2int buff (pos + 8) = rb.body.length ∧
        Stored buff (pos + rb.len) rest

section Sender

variable {proto size : Int}

theorem fillPackage_queue (queue : List RpcPart) (buff : Buffer) (length : Int) :
    (fillPackage proto size queue buff length).packed ++
      (fillPackage proto size queue buff length).rest = queue := by
  induction queue generalizing buff length with
  | nil => rfl
  | cons rb rest ih =>
      rw [fillPackage]
      dsimp only
      split_ifs
      · rfl
      · rw [List.cons_append, ih]

theorem putPart_below (buff : Buffer) {pos i : Int} (rb : RpcPart) (below : i < pos) :
    putPart buff pos rb i = buff i := by
  simp only [putPart, Buffer.put]
  rw [if_neg (by omega), if_neg (by omega), if_neg (by omega), if_neg (by omega)]

/-- A part that was put is found, whatever is written behind it. -/
theorem partAt_putPart {buff other : Buffer} {pos : Int} {rb : RpcPart}
    (version : rb.dataVersion < 2 ^ 64) (short : rb.len < 2147483648)
    (agree : ∀ i < pos + rb.len, other i = putPart buff pos rb i) :
    partAt other pos = rb ∧ buff2int other (pos + 8) = rb.body.length := by
  have len : rb.len = 16 + rb.body.length := rfl
  have isLen : other.bytesAt (pos + 8) 4 = int2buff rb.body.length := by
    rw [Buffer.bytesAt_congr fun i _ high => agree i (by omega), putPart]
    exact Buffer.bytesAt_put_self _ _ (int2buff rb.body.length)
  have isVersion : other.bytesAt pos 8 = long2buff rb.dataVersion := by
    rw [Buffer.bytesAt_congr fun i _ high => agree i (by omega), putPart,
      Buffer.bytesAt_put_of_apart _ _ (by left; push_cast; omega)]
    exact Buffer.bytesAt_put_self _ _ (long2buff rb.dataVersion)
  have isBody : other.bytesAt (pos + 16) rb.body.length = rb.body := by
    rw [Buffer.bytesAt_congr fun i _ high => agree i (by omega), putPart,
      Buffer.bytesAt_put_of_apart _ _ (by rw [length_int2buff]; right; push_cast; omega),
      Buffer.bytesAt_put_of_apart _ _ (by rw [length_long2buff]; right; push_cast; omega)]
    exact Buffer.bytesAt_put_self _ _ rb.body
  have isCmd : other.bytesAt (pos + 12) 1 = [rb.cmd] := by
    rw [Buffer.bytesAt_congr fun i _ high => agree i (by omega), putPart,
      Buffer.bytesAt_put_of_apart _ _ (by rw [length_int2buff]; right; push_cast; omega),
      Buffer.bytesAt_put_of_apart _ _ (by rw [length_long2buff]; right; push_cast; omega),
      Buffer.bytesAt_put_of_apart _ _ (by left; push_cast; omega)]
    exact Buffer.bytesAt_put_self _ _ [rb.cmd]
  have length := buff2int_of_bytesAt (by omega) (by omega) isLen
  refine ⟨?_, length⟩
  rw [partAt, length, Int.toNat_natCast, isBody, buff2long_of_bytesAt version isVersion]
  have cmd : other (pos + 12) = rb.cmd := (List.cons.inj isCmd).1
  rw [cmd]

theorem Stored.congr {buff other : Buffer} {pos : Int} {parts : List RpcPart}
    (stored : Stored buff pos parts)
    (agree : ∀ i, pos ≤ i → i < pos + partsLen parts → other i = buff i) :
    Stored other pos parts := by
  induction parts generalizing pos with
  | nil => trivial
  | cons rb rest ih =>
      obtain ⟨part, length, later⟩ := stored
      have tail := partsLen_ge rest
      have len : rb.len = 16 + rb.body.length := rfl
      rw [partsLen_cons] at agree
      have isLength : buff2int other (pos + 8) = rb.body.length := by
        rw [← length, buff2int, buff2int,
          Buffer.bytesAt_congr fun i low high => agree i (by omega) (by omega)]
      have isVersion : buff2long other pos = buff2long buff pos := by
        rw [buff2long, buff2long,
          Buffer.bytesAt_congr fun i low high => agree i (by omega) (by omega)]
      refine ⟨?_, isLength, ih later fun i low high => agree i ?_ ?_⟩
      · rw [← part, partAt, partAt, isLength, length, isVersion, agree (pos + 12) (by omega) (by omega),
          Buffer.bytesAt_congr fun i low high => agree i (by omega) (by omega)]
      · omega
      · omega

/-- What the loop leaves alone: everything before the first part. -/
theorem fillPackage_below {queue : List RpcPart} {buff : Buffer} {length : Int}
    (least : -2147483648 ≤ length) (countable : Countable size queue length) {i : Int}
    (below : i < length - proto) : (fillPackage proto size queue buff length).buff i = buff i := by
  induction queue generalizing buff length with
  | nil => rfl
  | cons rb rest ih =>
      have len : rb.len = 16 + rb.body.length := rfl
      have exact : toInt (length + 16 + rb.body.length) = length + rb.len := by
        rw [toInt_of_lt (by omega) (by have := countable.1; omega), len]
        ring
      rw [fillPackage]
      dsimp only
      rw [exact]
      split_ifs with full
      · rfl
      · rw [ih (by omega) (countable.2 (not_lt.mp full)) (by omega), putPart_below _ _ below]

/-- While the length does not wrap, the parts are stored one after another and fit the buffer. -/
theorem fillPackage_spec {queue : List RpcPart} {buff : Buffer} {length : Int}
    (least : 0 ≤ length) (fits : length ≤ size)
    (versions : ∀ rb ∈ queue, rb.dataVersion < 2 ^ 64) (countable : Countable size queue length) :
    let filled := fillPackage proto size queue buff length
    Stored filled.buff (length - proto) filled.packed ∧
      filled.length = length + partsLen filled.packed ∧ filled.length ≤ size := by
  induction queue generalizing buff length with
  | nil => exact ⟨trivial, (add_zero length).symm, fits⟩
  | cons rb rest ih =>
      have len : rb.len = 16 + rb.body.length := rfl
      have exact : toInt (length + 16 + rb.body.length) = length + rb.len := by
        rw [toInt_of_lt (by omega) (by have := countable.1; omega), len]
        ring
      rw [fillPackage]
      dsimp only
      rw [exact]
      split_ifs with full
      · exact ⟨trivial, (add_zero length).symm, fits⟩
      · have room := not_lt.mp full
        obtain ⟨stored, total, inside⟩ := @ih (putPart buff (length - proto) rb) _ (by omega)
          room (fun other member => versions other (List.mem_cons_of_mem _ member))
          (countable.2 room)
        have short : rb.len < 2147483648 := by
          have := countable.1
          omega
        have kept : ∀ i < length - proto + rb.len,
            (fillPackage proto size rest (putPart buff (length - proto) rb)
              (length + rb.len)).buff i = putPart buff (length - proto) rb i :=
          fun i below => fillPackage_below (by omega) (countable.2 room) (by omega)
        have here := partAt_putPart (versions rb List.mem_cons_self) short kept
        have next : length + rb.len - proto = length - proto + rb.len := by ring
        rw [next] at stored
        refine ⟨⟨here.1, here.2, stored⟩, ?_, inside⟩
        rw [total, partsLen_cons]
        ring

/-- Where the length wraps, the package is longer than the buffer. -/
theorem fillPackage_wraps {queue : List RpcPart} {buff : Buffer} {length : Int}
    (positive : 0 ≤ size) (most : size < 2147483648) (least : 0 ≤ length) (fits : length ≤ size)
    (alone : ∀ rb ∈ queue, rb.len ≤ size) (wraps : ¬Countable size queue length) :
    size < length + partsLen (fillPackage proto size queue buff length).packed := by
  induction queue generalizing buff length with
  | nil => exact absurd trivial wraps
  | cons rb rest ih =>
      have len : rb.len = 16 + rb.body.length := rfl
      have small := alone rb List.mem_cons_self
      have spec := toInt_spec (length + 16 + rb.body.length)
      rw [fillPackage]
      dsimp only
      by_cases exact : length + rb.len < 2147483648
      · have room : length + rb.len ≤ size := by
          by_contra full
          exact wraps ⟨exact, fun ends => absurd ends full⟩
        have same : toInt (length + 16 + rb.body.length) = length + rb.len := by omega
        have later := @ih (putPart buff (length - proto) rb) _ (by omega) room
          (fun other member => alone other (List.mem_cons_of_mem _ member))
          fun countable => wraps ⟨exact, fun _ => countable⟩
        rw [same, if_neg (not_lt.mpr room), partsLen_cons]
        omega
      · have passes : ¬size < toInt (length + 16 + rb.body.length) := by omega
        rw [if_neg passes, partsLen_cons]
        have tail := partsLen_ge (fillPackage proto size rest (putPart buff (length - proto) rb)
          (toInt (length + 16 + rb.body.length))).packed
        omega

/-- The first entry is always in the package. -/
theorem fillPackage_packed_ne_nil {rb : RpcPart} {rest : List RpcPart} (buff : Buffer)
    (nonneg : 0 ≤ proto) (most : size < 2147483648) (fits : rb.Fits proto size) :
    (fillPackage proto size (rb :: rest) buff (proto + 8)).packed ≠ [] := by
  have room := fits.room
  have len : rb.len = 16 + rb.body.length := rfl
  have same : toInt (proto + 8 + 16 + rb.body.length) = proto + 8 + rb.len := by
    rw [toInt_of_lt (by omega) (by omega), len]
    ring
  rw [fillPackage]
  dsimp only
  rw [same, if_neg (not_lt.mpr room)]
  exact List.cons_ne_nil _ _

end Sender

/-- The stored parts are handed on one after another. -/
theorem handleRpcReq_stored {buff : Buffer} {bodyLen : Int} (deal : RpcPart → Int)
    (most : bodyLen < 2147483648) {parts : List RpcPart} {pos : Int} (nonneg : 0 ≤ pos)
    (ends : pos + partsLen parts = bodyLen) (stored : Stored buff pos parts)
    (full : ∀ part ∈ parts, 0 < part.body.length ∧ 0 < part.dataVersion)
    (accepted : ∀ part ∈ parts, deal part = 0) :
    (handleRpcReq buff bodyLen deal parts.length pos).result = 0 ∧
      (handleRpcReq buff bodyLen deal parts.length pos).parts = parts := by
  induction parts generalizing pos with
  | nil => exact ⟨rfl, rfl⟩
  | cons rb rest ih =>
      obtain ⟨part, length, later⟩ := stored
      obtain ⟨body, version⟩ := full rb List.mem_cons_self
      have len : rb.len = 16 + rb.body.length := rfl
      have tail := partsLen_ge rest
      rw [partsLen_cons] at ends
      have same : toInt (pos + 16 + rb.body.length) = pos + rb.len := by
        rw [toInt_of_lt (by omega) (by omega), len]
        ring
      have isVersion : buff2long buff pos = rb.dataVersion := congrArg RpcPart.dataVersion part
      have rests := ih (by omega) (by omega) later
        (fun other member => full other (List.mem_cons_of_mem _ member))
        (fun other member => accepted other (List.mem_cons_of_mem _ member))
      have taken : ∀ decoded, takePart buff deal pos decoded =
          Decoded.after [⟨pos + 12, 1⟩, ⟨pos, 8⟩] (Decoded.after [⟨pos + 16, rb.body.length⟩]
            (decoded.cons rb)) := by
        intro decoded
        rw [takePart, isVersion, if_neg version.ne', length, part,
          if_pos (accepted rb List.mem_cons_self)]
      rw [List.length_cons, handleRpcReq, length, same]
      dsimp only
      rw [if_neg (by omega), taken]
      by_cases last : rest.length = 0
      · have ended : ¬bodyLen ≠ pos + rb.len := by
          rw [List.length_eq_zero_iff.mp last] at ends
          simp only [partsLen, List.map_nil, List.sum_nil] at ends
          omega
        rw [if_pos last, if_neg ended]
        exact ⟨rests.1, congrArg (List.cons rb) rests.2⟩
      · rw [if_neg last, if_neg (by omega)]
        exact ⟨rests.1, congrArg (List.cons rb) rests.2⟩

/-- Whoever receives the bytes of the package hands on its entries in their order. -/
def RpcPackage.Decodes (package : RpcPackage) : Prop :=
  ∀ received : Buffer, (∀ i, 0 ≤ i → i < package.bodyLen → received i = package.buff i) →
    ∀ deal, (∀ part ∈ package.packed, deal part = 0) →
      (replicaDealRpcReq received package.bodyLen deal).result = 0 ∧
        (replicaDealRpcReq received package.bodyLen deal).parts = package.packed

/-- The package made of a queue lies in the buffer, has the first entries of the queue, leaves the
others, and is decoded to its entries. -/
def RoundTrips (proto size : Int) (buff : Buffer) (queue : List RpcPart) : Prop :=
  ∃ package, (replicationRpcFromQueue proto size buff queue).1 = some package ∧
    package.packed ≠ [] ∧ proto + 8 + partsLen package.packed ≤ size ∧
    package.packed ++ (replicationRpcFromQueue proto size buff queue).2 = queue ∧ package.Decodes

section RoundTrip

variable {proto size : Int} {queue : List RpcPart}

theorem decodes_of_stored {package : RpcPackage} (most : package.bodyLen < 2147483648)
    (packed : package.packed ≠ []) (ends : 8 + partsLen package.packed = package.bodyLen)
    (count : package.buff.bytesAt 0 4 = int2buff package.packed.length)
    (stored : Stored package.buff 8 package.packed)
    (full : ∀ part ∈ package.packed, 0 < part.body.length ∧ 0 < part.dataVersion) :
    package.Decodes := by
  intro received agree deal accepted
  have many := partsLen_ge package.packed
  have present : 0 < package.packed.length := List.length_pos_iff.mpr packed
  have isCount : buff2int received 0 = package.packed.length := by
    apply buff2int_of_bytesAt (by omega) (by omega)
    rw [← count]
    exact Buffer.bytesAt_congr fun i low high => agree i low (by omega)
  have given : Stored received 8 package.packed :=
    stored.congr fun i low high => agree i (by omega) (by omega)
  have enough : ¬package.bodyLen < toInt (8 + 16 * package.packed.length) := by
    rw [toInt_of_lt (by omega) (by omega)]
    omega
  rw [replicaDealRpcReq, if_neg (by omega), isCount]
  dsimp only
  rw [if_neg (by omega), if_neg enough, Int.toNat_natCast]
  exact handleRpcReq_stored deal most (by decide) ends given full accepted

/-- The round trip of a package: it fails only where the length wraps. -/
theorem roundTrips_iff (nonneg : 0 ≤ proto) (most : size < 2147483648) (buff : Buffer)
    (present : queue ≠ []) (fits : ∀ part ∈ queue, part.Fits proto size) :
    RoundTrips proto size buff queue ↔ Countable size queue (proto + 8) := by
  obtain ⟨rb, rest, rfl⟩ := List.exists_cons_of_ne_nil present
  have first := fits rb List.mem_cons_self
  have room := first.room
  have len : rb.len = 16 + rb.body.length := rfl
  have packed : (fillPackage proto size (rb :: rest) buff (proto + 8)).packed ≠ [] :=
    fillPackage_packed_ne_nil buff nonneg most first
  have made : (replicationRpcFromQueue proto size buff (rb :: rest)).1 = some _ := if_neg packed
  have split : (fillPackage proto size (rb :: rest) buff (proto + 8)).packed ++
      (fillPackage proto size (rb :: rest) buff (proto + 8)).rest = rb :: rest :=
    fillPackage_queue (rb :: rest) buff (proto + 8)
  constructor
  · rintro ⟨package, isPackage, _, inside, _⟩
    by_contra wraps
    have behind : size < proto + 8 +
        partsLen (fillPackage proto size (rb :: rest) buff (proto + 8)).packed :=
      fillPackage_wraps (by omega) most (by omega) (by omega)
        (fun other member => by have := (fits other member).room; omega) wraps
    rw [made, Option.some.injEq] at isPackage
    rw [← isPackage] at inside
    exact absurd inside (not_le.mpr behind)
  · intro countable
    obtain ⟨stored, total, inside⟩ := @fillPackage_spec proto size (rb :: rest) buff (proto + 8)
      (by omega) (by omega) (fun other member => (fits other member).version.2) countable
    refine ⟨_, made, packed, ?_, split, ?_⟩
    · dsimp only
      omega
    · have front : proto + 8 - proto = 8 := by ring
      rw [front] at stored
      refine decodes_of_stored ?_ packed ?_ (Buffer.bytesAt_put_self _ _ (int2buff _)) ?_ ?_
      · dsimp only
        omega
      · dsimp only
        omega
      · refine stored.congr fun i low _ => ?_
        have count : (int2buff ((fillPackage proto size (rb :: rest) buff
          (proto + 8)).packed.length : Int)).length = 4 := length_int2buff _
        dsimp only [Buffer.put]
        rw [if_neg (by omega)]
      · intro part member
        have inQueue : part ∈ rb :: rest := by
          rw [← split]
          exact List.mem_append_left _ member
        exact ⟨(fits part inQueue).body, (fits part inQueue).version.1⟩

end RoundTrip

/-! ## Successive packages -/

/-- A slave's queue and the packages made of it so far; `taken` is what the sending thread has
popped, `pushed` all that was ever put into the queue. -/
structure RpcSender where
  queue : List RpcPart
  taken : List RpcPart
  packages : List RpcPackage
  pushed : List RpcPart

inductive RpcSenderAction where
  /-- A data thread puts an entry into the queue. -/
  | push (part : RpcPart)
  /-- `fc_queue_try_pop_to_queue`. -/
  | pop
  /-- The rest of `replication_rpc_from_queue`, on a buffer with old bytes. -/
  | pack (buff : Buffer)

namespace RpcSender

variable (proto size : Int)

def enabled (s : RpcSender) : RpcSenderAction → Prop
  | .push part => part.Fits proto size
  | .pop => s.taken = []
  | .pack _ => s.taken ≠ []

def next (s : RpcSender) : RpcSenderAction → RpcSender
  | .push part => { s with queue := s.queue ++ [part], pushed := s.pushed ++ [part] }
  | .pop => { s with queue := [], taken := s.queue }
  | .pack buff =>
      { s with
        queue := (replicationRpcFromQueue proto size buff s.taken).2 ++ s.queue
        taken := []
        packages := s.packages ++ (replicationRpcFromQueue proto size buff s.taken).1.toList }

abbrev step : StepRel RpcSender RpcSenderAction :=
  StepRel.ofNext (enabled proto size) (next proto size)

def start : RpcSender := ⟨[], [], [], []⟩

/-- The length of the package that is made does not wrap. -/
def Counts (s : RpcSender) : RpcSenderAction → Prop
  | .pack _ => Countable size s.taken (proto + 8)
  | _ => True

/-- Nothing is lost, repeated or reordered between the queue and the packages, and each package
is decoded to its entries. -/
structure InOrder (s : RpcSender) : Prop where
  entries : s.pushed = s.packages.flatMap RpcPackage.packed ++ s.taken ++ s.queue
  decodes : ∀ package ∈ s.packages, package.Decodes

/-- While no length wraps, the entries are sent in their order. -/
theorem inOrder_of_reachable (nonneg : 0 ≤ proto) (most : size < 2147483648) {s : RpcSender}
    (reached : Reachable ((step proto size).guarded (Counts proto size)) (· = start) s) :
    s.InOrder := by
  have both : (∀ part ∈ s.pushed, part.Fits proto size) ∧ s.InOrder := by
    induction reached with
    | start first =>
        rw [first]
        exact ⟨by simp [start], rfl, by simp [start]⟩
    | @next s _ action _ taken ih =>
      obtain ⟨counts, possible, rfl⟩ := taken
      obtain ⟨fits, entries, decodes⟩ := ih
      cases action with
      | push part =>
          refine ⟨fun other member => ?_, ?_, decodes⟩
          · rcases List.mem_append.mp member with old | new
            · exact fits other old
            · rw [List.mem_singleton.mp new]
              exact possible
          · simp [next, entries]
      | pop =>
          have none : s.taken = [] := possible
          refine ⟨fits, ?_, decodes⟩
          simp [next, entries, none]
      | pack buff =>
          have taken : ∀ part ∈ s.taken, part.Fits proto size := by
            intro part member
            apply fits
            rw [entries]
            exact List.mem_append_left _ (List.mem_append_right _ member)
          obtain ⟨package, made, _, _, split, decoded⟩ :=
            (roundTrips_iff nonneg most buff possible taken).mpr counts
          refine ⟨fits, ?_, ?_⟩
          · simp only [next, made, Option.toList_some, List.flatMap_append, List.flatMap_cons,
              List.flatMap_nil, List.append_nil, entries]
            conv_lhs => rw [← split]
            simp only [List.append_assoc]
          · intro other member
            simp only [next, made, Option.toList_some] at member
            rcases List.mem_append.mp member with old | new
            · exact decodes other old
            · rw [List.mem_singleton.mp new]
              exact decoded
  exact both.2

end RpcSender

end FastStore.Replication
