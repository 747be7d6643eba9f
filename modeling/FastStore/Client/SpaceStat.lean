import FastStore.Util.System

/-!
# The space of a cluster

A client asks one server of each group for the space of the servers of its group, and
takes the smallest answer of a group as what the group has.  Servers that fail to answer
are skipped, and an answer takes all servers of its group from the set of those still to
ask.
-/

namespace FastStore.Client

open FastStore.Util

/-- `FSClusterSpaceStat`. -/
structure FSClusterSpaceStat where
  total : Int
  avail : Int
  used : Int
  deriving DecidableEq, Repr

/-- `FSClientServerSpaceStat`: the space of one server, `total` zero where it is not known. -/
structure FSClientServerSpaceStat where
  server_id : Int
  stat : FSClusterSpaceStat
  deriving DecidableEq, Repr

namespace FSClusterSpaceStat

def zero : FSClusterSpaceStat := ⟨0, 0, 0⟩

def add (left right : FSClusterSpaceStat) : FSClusterSpaceStat :=
  ⟨left.total + right.total, left.avail + right.avail, left.used + right.used⟩

/-- One entry of an answer, against the smallest before it. -/
def takeMin (min_stat : FSClusterSpaceStat) (cur : FSClientServerSpaceStat) : FSClusterSpaceStat :=
  if 0 < cur.stat.total ∧ (min_stat.avail = 0 ∨ cur.stat.avail < min_stat.avail) then cur.stat
  else min_stat

end FSClusterSpaceStat

open FSClusterSpaceStat (takeMin)

/-- The loop over the entries of an answer of `server`: the smallest, and the servers that
are still to ask. -/
def dealEntries (server : Int) : List FSClientServerSpaceStat → FSClusterSpaceStat → List Int →
    Except Errno (FSClusterSpaceStat × List Int)
  | [], min_stat, sl => .ok (min_stat, sl)
  | cur :: rest, min_stat, sl =>
      if cur.server_id ∈ sl then
        dealEntries server rest (takeMin min_stat cur) (sl.erase cur.server_id)
      else if cur.server_id = server then .error .enoent
      else dealEntries server rest (takeMin min_stat cur) sl

/-- A request that was made: the server, and its answer with what was added for it. -/
structure SpaceRequest where
  server : Int
  answer : Option (List FSClientServerSpaceStat × FSClusterSpaceStat)
  deriving DecidableEq, Repr

/-- `cluster_space_stat`, with the requests it makes.  `answers` is what
`fs_client_server_group_space_stat` brings from a server, `none` when it fails; the fuel
bounds the requests, and `none` means that it is used up. -/
def cluster_space_stat (answers : Int → Option (List FSClientServerSpaceStat)) :
    Nat → List Int → FSClusterSpaceStat → Option (Errno × FSClusterSpaceStat × List SpaceRequest)
  | _, [], stat => some (.ok, stat, [])
  | 0, _ :: _, _ => none
  | fuel + 1, server :: others, stat =>
      match answers server with
      | none =>
          (cluster_space_stat answers fuel others stat).map fun rest =>
            (rest.1, rest.2.1, ⟨server, none⟩ :: rest.2.2)
      | some entries =>
          match dealEntries server entries .zero (server :: others) with
          | .error result => some (result, stat, [⟨server, some (entries, .zero)⟩])
          | .ok (min_stat, sl) =>
              (cluster_space_stat answers fuel sl (stat.add min_stat)).map fun rest =>
                (rest.1, rest.2.1, ⟨server, some (entries, min_stat)⟩ :: rest.2.2)

/-! ## The smallest entry -/

/-- The entries whose space is known. -/
def known (entries : List FSClientServerSpaceStat) : List FSClientServerSpaceStat :=
  entries.filter fun entry => 0 < entry.stat.total

/-- What an answer adds is the entry with the least space left, or nothing where no space is
known. -/
def Picks (entries : List FSClientServerSpaceStat) (added : FSClusterSpaceStat) : Prop :=
  (known entries = [] → added = .zero) ∧
    (known entries ≠ [] → ∃ entry ∈ known entries, added = entry.stat ∧
      ∀ other ∈ known entries, entry.stat.avail ≤ other.stat.avail)

/-- No server of known space is full, or the last entry of known space is of a full one.
(With a negative number among them the order does not matter.) -/
def FullLast (entries : List FSClientServerSpaceStat) : Prop :=
  (∃ entry ∈ known entries, entry.stat.avail < 0) ∨
    (∀ entry ∈ known entries, entry.stat.avail ≠ 0) ∨
      ∃ last, (known entries).getLast? = some last ∧ last.stat.avail = 0

theorem takeMin_of_unknown {min_stat : FSClusterSpaceStat} {cur : FSClientServerSpaceStat}
    (unknown : ¬0 < cur.stat.total) : takeMin min_stat cur = min_stat :=
  if_neg fun both => unknown both.1

theorem takeMin_of_known {min_stat : FSClusterSpaceStat} {cur : FSClientServerSpaceStat}
    (total : 0 < cur.stat.total) :
    takeMin min_stat cur =
      if min_stat.avail = 0 ∨ cur.stat.avail < min_stat.avail then cur.stat else min_stat :=
  if_congr (and_iff_right total) rfl rfl

/-- Only the entries of known space count. -/
theorem foldl_takeMin_known (entries : List FSClientServerSpaceStat)
    (min_stat : FSClusterSpaceStat) :
    entries.foldl takeMin min_stat = (known entries).foldl takeMin min_stat := by
  induction entries generalizing min_stat with
  | nil => rfl
  | cons entry rest ih =>
      rw [List.foldl_cons, known, List.filter_cons]
      split
      · exact ih _
      · rename_i unknown
        rw [takeMin_of_unknown (by simpa using unknown)]
        exact ih _

/-- What the running minimum says about the entries so far. -/
structure Running (entries : List FSClientServerSpaceStat) (min_stat : FSClusterSpaceStat) :
    Prop where
  empty : entries = [] → min_stat = .zero
  member : entries ≠ [] → ∃ entry ∈ entries, min_stat = entry.stat
  negative : (∃ entry ∈ entries, entry.stat.avail < 0) →
    ∀ entry ∈ entries, min_stat.avail ≤ entry.stat.avail
  positive : (∀ entry ∈ entries, 0 < entry.stat.avail) →
    ∀ entry ∈ entries, min_stat.avail ≤ entry.stat.avail
  last : (∀ entry ∈ entries, 0 ≤ entry.stat.avail) → ∀ last, entries.getLast? = some last →
    (min_stat.avail = 0 ↔ last.stat.avail = 0)

theorem Running.avail {entries : List FSClientServerSpaceStat} {min_stat : FSClusterSpaceStat}
    (running : Running entries min_stat) :
    min_stat.avail = 0 ∨ ∃ entry ∈ entries, min_stat.avail = entry.stat.avail := by
  cases entries with
  | nil =>
      rw [running.empty rfl]
      exact Or.inl rfl
  | cons first rest =>
      obtain ⟨entry, member, same⟩ := running.member (List.cons_ne_nil _ _)
      exact Or.inr ⟨entry, member, congrArg FSClusterSpaceStat.avail same⟩

theorem Running.append {entries : List FSClientServerSpaceStat} {min_stat : FSClusterSpaceStat}
    (running : Running entries min_stat) {cur : FSClientServerSpaceStat}
    (total : 0 < cur.stat.total) : Running (entries ++ [cur]) (takeMin min_stat cur) := by
  have avail := running.avail
  have members : ∀ {p : FSClientServerSpaceStat → Prop},
      (∀ entry ∈ entries ++ [cur], p entry) ↔ (∀ entry ∈ entries, p entry) ∧ p cur := by
    intro p
    rw [List.forall_mem_append, List.forall_mem_singleton]
  rw [takeMin_of_known total]
  constructor
  · intro impossible
    exact absurd impossible (List.append_ne_nil_of_right_ne_nil _ (List.cons_ne_nil _ _))
  · intro _
    split
    · exact ⟨cur, List.mem_append_right _ List.mem_cons_self, rfl⟩
    · rename_i kept
      have some : entries ≠ [] := by
        intro none
        rw [running.empty none] at kept
        exact kept (Or.inl rfl)
      obtain ⟨entry, member, same⟩ := running.member some
      exact ⟨entry, List.mem_append_left _ member, same⟩
  · rintro ⟨entry, member, below⟩
    rw [members]
    by_cases before : ∃ entry ∈ entries, entry.stat.avail < 0
    · have least := running.negative before
      obtain ⟨low, lowMember, lowBelow⟩ := before
      have under := least low lowMember
      split
      · refine ⟨fun other otherMember => ?_, le_rfl⟩
        have bound := least other otherMember
        omega
      · exact ⟨least, by omega⟩
    · have nonneg : ∀ other ∈ entries, 0 ≤ other.stat.avail := by
        intro other otherMember
        by_contra negative
        exact before ⟨other, otherMember, not_le.mp negative⟩
      have own : cur.stat.avail < 0 := by
        cases List.mem_append.mp member with
        | inl earlier => exact absurd (nonneg entry earlier) (not_le.mpr below)
        | inr last =>
            rw [List.mem_singleton.mp last] at below
            exact below
      have taken : min_stat.avail = 0 ∨ cur.stat.avail < min_stat.avail := by
        rcases avail with zero | ⟨other, otherMember, same⟩
        · exact Or.inl zero
        · have := nonneg other otherMember
          omega
      rw [if_pos taken]
      exact ⟨fun other otherMember => own.le.trans (nonneg other otherMember), le_rfl⟩
  · intro positive
    obtain ⟨earlier, own⟩ := members.mp positive
    have least := running.positive earlier
    rw [members]
    rcases avail with zero | ⟨other, otherMember, same⟩
    · have none : entries = [] := by
        by_contra some
        obtain ⟨entry, member, same⟩ := running.member some
        have := earlier entry member
        rw [same] at zero
        omega
      rw [if_pos (Or.inl zero), none]
      exact ⟨List.forall_mem_nil _, le_rfl⟩
    · have := earlier other otherMember
      split
      · refine ⟨fun entry member => ?_, le_rfl⟩
        have bound := least entry member
        omega
      · exact ⟨least, by omega⟩
  · intro nonneg last ends
    obtain ⟨earlier, own⟩ := members.mp nonneg
    rw [List.getLast?_concat, Option.some.injEq] at ends
    rw [← ends]
    split
    · exact Iff.rfl
    · rcases avail with zero | ⟨other, otherMember, same⟩
      · omega
      · have := earlier other otherMember
        omega

theorem running_foldl {entries : List FSClientServerSpaceStat}
    (totals : ∀ entry ∈ entries, 0 < entry.stat.total) :
    Running entries (entries.foldl takeMin .zero) := by
  induction entries using List.reverseRecOn with
  | nil =>
      exact ⟨fun _ => rfl, fun impossible => absurd rfl impossible, fun _ => List.forall_mem_nil _,
        fun _ => List.forall_mem_nil _, fun _ last ends => (Option.some_ne_none last ends.symm).elim⟩
  | append_singleton before cur ih =>
      rw [List.foldl_concat]
      exact (ih fun entry member => totals entry (List.mem_append_left _ member)).append
        (totals cur (List.mem_append_right _ List.mem_cons_self))

/-- The running minimum takes zero for "none yet": it finds the smallest entry exactly when
a full server comes last. -/
theorem picks_iff (entries : List FSClientServerSpaceStat) :
    Picks entries (entries.foldl takeMin .zero) ↔ FullLast entries := by
  rw [foldl_takeMin_known]
  have running := @running_foldl (known entries) fun entry member => by
    simpa using (List.mem_filter.mp member).2
  constructor
  · intro picks
    by_contra notLast
    simp only [FullLast, not_or] at notLast
    obtain ⟨noNegative, someZero, notZero⟩ := notLast
    have nonneg : ∀ entry ∈ known entries, 0 ≤ entry.stat.avail := by
      intro entry member
      by_contra negative
      exact noNegative ⟨entry, member, not_le.mp negative⟩
    obtain ⟨full, fullMember, fullZero⟩ : ∃ entry ∈ known entries, entry.stat.avail = 0 := by
      by_contra none
      exact someZero fun entry member zero => none ⟨entry, member, zero⟩
    have some : known entries ≠ [] := List.ne_nil_of_mem fullMember
    obtain ⟨entry, member, same, least⟩ := picks.2 some
    have low := least full fullMember
    have high := nonneg entry member
    have last := List.getLast?_eq_some_getLast some
    have zero := (running.last nonneg _ last).mp (by rw [same]; omega)
    exact notZero ⟨_, last, zero⟩
  · intro order
    refine ⟨running.empty, fun some => ?_⟩
    obtain ⟨entry, member, same⟩ := running.member some
    refine ⟨entry, member, same, ?_⟩
    have goal : ∀ other ∈ known entries,
        ((known entries).foldl takeMin .zero).avail ≤ other.stat.avail := by
      by_cases low : ∃ entry ∈ known entries, entry.stat.avail < 0
      · exact running.negative low
      · have nonneg : ∀ entry ∈ known entries, 0 ≤ entry.stat.avail := by
          intro other otherMember
          by_contra negative
          exact low ⟨other, otherMember, not_le.mp negative⟩
        rcases order with negative | noZero | ⟨last, ends, zero⟩
        · exact absurd negative low
        · refine running.positive fun other otherMember => ?_
          exact lt_of_le_of_ne (nonneg other otherMember) (noZero other otherMember).symm
        · intro other otherMember
          rw [(running.last nonneg last ends).mpr zero]
          exact nonneg other otherMember
    rw [same] at goal
    exact goal

/-! ## The requests -/

/-- The entries of an answer take their servers from the set. -/
theorem dealEntries_spec {server : Int} {entries : List FSClientServerSpaceStat}
    (distinct : (entries.map (·.server_id)).Nodup) (min_stat : FSClusterSpaceStat) {sl : List Int}
    (nodup : sl.Nodup) (own : server ∈ sl ∨ server ∉ entries.map (·.server_id)) :
    dealEntries server entries min_stat sl = .ok (entries.foldl takeMin min_stat,
      sl.filter fun other => other ∉ entries.map (·.server_id)) := by
  induction entries generalizing min_stat sl with
  | nil =>
      rw [dealEntries]
      simp
  | cons cur rest ih =>
      rw [List.map_cons, List.nodup_cons] at distinct
      rw [List.map_cons, List.mem_cons, not_or] at own
      rw [dealEntries, List.foldl_cons]
      split
      · rename_i present
        have next : server ∈ sl.erase cur.server_id ∨ server ∉ rest.map (·.server_id) := by
          by_cases same : server = cur.server_id
          · rw [same]
            exact Or.inr distinct.1
          · exact own.imp (List.mem_erase_of_ne same).mpr (·.2)
        rw [ih distinct.2 _ (nodup.erase _) next, nodup.erase_eq_filter, List.filter_filter]
        congr 2
        refine List.filter_congr fun other _ => ?_
        rw [List.map_cons, Bool.eq_iff_iff]
        simp [List.mem_cons, not_or, and_comm]
      · rename_i absent
        have other : cur.server_id ≠ server := by
          intro same
          rw [same] at absent
          cases own with
          | inl present => exact absent present
          | inr away => exact away.1 same.symm
        rw [if_neg other, ih distinct.2 _ nodup (own.imp_right (·.2))]
        congr 2
        refine List.filter_congr fun present member => ?_
        have apart : present ≠ cur.server_id := by
          intro same
          rw [same] at member
          exact absent member
        simp [List.mem_cons, apart]

section Requests

variable {γ : Type} [DecidableEq γ] (group : Int → γ)
  (answers : Int → Option (List FSClientServerSpaceStat))

/-- An answer has one entry for each server of the group. -/
def Complete (servers : List Int) : Prop :=
  ∀ server ∈ servers, ∀ entries, answers server = some entries →
    (entries.map (·.server_id)).Perm (servers.filter fun other => group other = group server)

/-- The server is the one whose turn comes: every server of its group before it fails. -/
def ComesUp (servers : List Int) (server : Int) : Prop :=
  server ∈ servers ∧ ∀ other ∈ servers.takeWhile (· ≠ server), group other = group server →
    answers other = none

/-- The sum of what was added. -/
def addAnswers (stat : FSClusterSpaceStat) (requests : List SpaceRequest) : FSClusterSpaceStat :=
  requests.foldl (fun sum request => (request.answer.map fun answer => sum.add answer.2).getD sum)
    stat

/-- The requests for the servers of a set: each server once at most, each group at least
once, and the answers of the servers whose turn came. -/
structure Asks (servers : List Int) (requests : List SpaceRequest) : Prop where
  once : (requests.map (·.server)).Nodup
  within : ∀ request ∈ requests, request.server ∈ servers
  groups : ∀ server ∈ servers, ∃ request ∈ requests, group request.server = group server
  answered : ∀ server entries added, ⟨server, some (entries, added)⟩ ∈ requests ↔
    ComesUp group answers servers server ∧ answers server = some entries ∧
      added = entries.foldl takeMin .zero

variable {group answers}

omit [DecidableEq γ] in
theorem comesUp_head (server : Int) (others : List Int) :
    ComesUp group answers (server :: others) server := by
  refine ⟨List.mem_cons_self, ?_⟩
  rw [List.takeWhile_cons_of_neg (by simp)]
  exact List.forall_mem_nil _

omit [DecidableEq γ] in
/-- Behind a server that fails. -/
theorem comesUp_cons_of_failed {server other : Int} {others : List Int} (distinct : other ≠ server)
    (failed : answers server = none) :
    ComesUp group answers (server :: others) other ↔ ComesUp group answers others other := by
  have first : ∀ (p : Int → Bool), (server :: others).takeWhile (· ≠ other) =
      server :: others.takeWhile (· ≠ other) :=
    fun _ => List.takeWhile_cons_of_pos (by simpa using distinct.symm)
  rw [ComesUp, ComesUp, first fun _ => true, List.forall_mem_cons, List.mem_cons,
    or_iff_right distinct]
  refine and_congr_right fun _ => and_iff_right fun _ => failed

theorem takeWhile_filter {p : Int → Bool} {server : Int} (kept : p server = true)
    (others : List Int) : (others.filter p).takeWhile (· ≠ server) =
      (others.takeWhile (· ≠ server)).filter p := by
  induction others with
  | nil => rfl
  | cons first rest ih =>
      by_cases same : first = server
      · rw [same, List.filter_cons_of_pos kept, List.takeWhile_cons_of_neg (by simp),
          List.takeWhile_cons_of_neg (by simp), List.filter_nil]
      · rw [List.takeWhile_cons_of_pos (by simpa using same)]
        by_cases taken : p first = true
        · rw [List.filter_cons_of_pos taken, List.filter_cons_of_pos taken,
            List.takeWhile_cons_of_pos (by simpa using same), ih]
        · rw [List.filter_cons_of_neg taken, List.filter_cons_of_neg taken, ih]

/-- Behind a server that answers, its group is done. -/
theorem comesUp_cons_of_answered {server other : Int} {others : List Int}
    (distinct : other ≠ server) (answer : answers server ≠ none) :
    ComesUp group answers (server :: others) other ↔
      ComesUp group answers (others.filter fun left => group left ≠ group server) other := by
  have first : (server :: others).takeWhile (· ≠ other) =
      server :: others.takeWhile (· ≠ other) :=
    List.takeWhile_cons_of_pos (by simpa using distinct.symm)
  rw [ComesUp, ComesUp, first, List.forall_mem_cons, List.mem_cons, or_iff_right distinct,
    List.mem_filter]
  by_cases same : group server = group other
  · constructor
    · rintro ⟨_, failed, _⟩
      exact absurd (failed same) answer
    · rintro ⟨⟨_, away⟩, _⟩
      rw [same] at away
      simp at away
  · have kept : decide (group other ≠ group server) = true := by
      simpa using Ne.symm same
    rw [takeWhile_filter kept]
    constructor
    · rintro ⟨member, _, failed⟩
      refine ⟨⟨member, kept⟩, fun left leftMember => failed left (List.mem_filter.mp leftMember).1⟩
    · rintro ⟨⟨member, _⟩, failed⟩
      refine ⟨member, fun own => absurd own same, fun left leftMember ownGroup => ?_⟩
      refine failed left (List.mem_filter.mpr ⟨leftMember, ?_⟩) ownGroup
      rw [ownGroup]
      exact kept

variable {servers : List Int}

omit [DecidableEq γ] in
theorem Asks.failed {server : Int} {others : List Int} {requests : List SpaceRequest}
    (asks : Asks group answers others requests) (nodup : (server :: others).Nodup)
    (failed : answers server = none) :
    Asks group answers (server :: others) (⟨server, none⟩ :: requests) where
  once := by
    rw [List.map_cons, List.nodup_cons]
    refine ⟨fun member => ?_, asks.once⟩
    obtain ⟨request, requestMember, same⟩ := List.mem_map.mp member
    dsimp only at same
    rw [← same] at nodup
    exact (List.nodup_cons.mp nodup).1 (asks.within request requestMember)
  within := List.forall_mem_cons.mpr ⟨List.mem_cons_self, fun request member =>
    List.mem_cons_of_mem _ (asks.within request member)⟩
  groups := by
    intro other member
    cases List.mem_cons.mp member with
    | inl same => exact ⟨_, List.mem_cons_self, congrArg group same.symm⟩
    | inr later =>
        obtain ⟨request, requestMember, own⟩ := asks.groups other later
        exact ⟨request, List.mem_cons_of_mem _ requestMember, own⟩
  answered := by
    intro other entries added
    have apart : (⟨other, some (entries, added)⟩ : SpaceRequest) ≠ ⟨server, none⟩ := by
      intro same
      cases same
    rw [List.mem_cons, or_iff_right apart, asks.answered]
    by_cases same : other = server
    · rw [same, failed]
      constructor
      · rintro ⟨_, impossible, _⟩
        cases impossible
      · rintro ⟨_, impossible, _⟩
        cases impossible
    · rw [comesUp_cons_of_failed same failed]

theorem Asks.succeeded {server : Int} {others : List Int} {requests : List SpaceRequest}
    (asks : Asks group answers (others.filter fun left => group left ≠ group server) requests)
    {entries : List FSClientServerSpaceStat} (answer : answers server = some entries) :
    Asks group answers (server :: others)
      (⟨server, some (entries, entries.foldl takeMin .zero)⟩ :: requests) where
  once := by
    rw [List.map_cons, List.nodup_cons]
    refine ⟨fun member => ?_, asks.once⟩
    obtain ⟨request, requestMember, same⟩ := List.mem_map.mp member
    have away := (List.mem_filter.mp (asks.within request requestMember)).2
    rw [same] at away
    simp at away
  within := List.forall_mem_cons.mpr ⟨List.mem_cons_self, fun request member =>
    List.mem_cons_of_mem _ (List.mem_filter.mp (asks.within request member)).1⟩
  groups := by
    intro other member
    by_cases own : group other = group server
    · exact ⟨_, List.mem_cons_self, own.symm⟩
    · have later : other ∈ others.filter fun left => group left ≠ group server := by
        cases List.mem_cons.mp member with
        | inl same =>
            rw [same] at own
            exact absurd rfl own
        | inr later => exact List.mem_filter.mpr ⟨later, by simpa using own⟩
      obtain ⟨request, requestMember, found⟩ := asks.groups other later
      exact ⟨request, List.mem_cons_of_mem _ requestMember, found⟩
  answered := by
    intro other otherEntries added
    rw [List.mem_cons, asks.answered]
    by_cases same : other = server
    · rw [same]
      constructor
      · rintro (own | ⟨comes, _⟩)
        · cases own
          exact ⟨comesUp_head server others, answer, rfl⟩
        · have away := (List.mem_filter.mp comes.1).2
          simp at away
      · rintro ⟨_, known, rfl⟩
        rw [answer] at known
        cases known
        exact Or.inl rfl
    · rw [or_iff_right fun own => same (congrArg SpaceRequest.server own),
        comesUp_cons_of_answered same (by rw [answer]; exact Option.some_ne_none _)]

theorem cluster_space_stat_spec (complete : Complete group answers servers) {fuel : Nat}
    {sl : List Int} (within : ∀ server ∈ sl, server ∈ servers) (nodup : sl.Nodup)
    (distinct : servers.Nodup) (enough : sl.length ≤ fuel) (stat : FSClusterSpaceStat) :
    ∃ requests, cluster_space_stat answers fuel sl stat =
        some (.ok, addAnswers stat requests, requests) ∧ Asks group answers sl requests := by
  induction fuel generalizing sl stat with
  | zero =>
      cases List.length_eq_zero_iff.mp (Nat.le_zero.mp enough)
      exact ⟨[], by rw [cluster_space_stat]; rfl, List.nodup_nil, List.forall_mem_nil _,
        List.forall_mem_nil _, fun _ _ _ => ⟨nofun, fun comes => nomatch comes.1.1⟩⟩
  | succ fuel ih =>
      cases sl with
      | nil =>
          exact ⟨[], by rw [cluster_space_stat]; rfl, List.nodup_nil, List.forall_mem_nil _,
            List.forall_mem_nil _, fun _ _ _ => ⟨nofun, fun comes => nomatch comes.1.1⟩⟩
      | cons server others =>
          have parts := List.nodup_cons.mp nodup
          rw [List.length_cons] at enough
          cases answer : answers server with
          | none =>
              obtain ⟨requests, ran, asks⟩ := ih
                (fun other member => within other (List.mem_cons_of_mem _ member)) parts.2
                (by omega) stat
              refine ⟨⟨server, none⟩ :: requests, ?_, asks.failed nodup answer⟩
              rw [cluster_space_stat, answer]
              dsimp only
              rw [ran]
              rfl
          | some entries =>
              have perm := complete server (within server List.mem_cons_self) entries answer
              have ids : (entries.map (·.server_id)).Nodup :=
                perm.nodup_iff.mpr (distinct.filter _)
              have dealt := dealEntries_spec ids .zero nodup (.inl List.mem_cons_self)
              -- the answer takes exactly the servers of the group
              have left : ((server :: others).filter fun other =>
                  other ∉ entries.map (·.server_id)) =
                  others.filter fun other => group other ≠ group server := by
                have same : ∀ other ∈ server :: others,
                    decide (other ∉ entries.map (·.server_id)) =
                      decide (group other ≠ group server) := by
                  intro other member
                  have known := within other member
                  have inGroup := @List.Perm.mem_iff _ other _ _ perm
                  rw [List.mem_filter, decide_eq_true_eq] at inGroup
                  rw [decide_eq_decide, inGroup]
                  exact not_congr (and_iff_right known)
                rw [List.filter_congr same, List.filter_cons_of_neg (by simp)]
              rw [left] at dealt
              obtain ⟨requests, ran, asks⟩ := @ih (others.filter fun other => group other ≠ group server)
                (fun other member =>
                  within other (List.mem_cons_of_mem _ (List.mem_filter.mp member).1))
                (parts.2.filter _) ((List.length_filter_le _ _).trans (by omega))
                (stat.add (entries.foldl takeMin .zero))
              refine ⟨⟨server, some (entries, entries.foldl takeMin .zero)⟩ :: requests, ?_,
                asks.succeeded answer⟩
              rw [cluster_space_stat, answer]
              dsimp only
              rw [dealt]
              dsimp only
              rw [ran]
              rfl

variable (group answers)

/-- The statistic ends after one request for a server at most, asks every group, and adds
for each answer the entry with the least space. -/
def SpaceStatRight (servers : List Int) (fuel : Nat) : Prop :=
  ∃ stat requests, cluster_space_stat answers fuel servers .zero = some (.ok, stat, requests) ∧
    (requests.map (·.server)).Nodup ∧ (∀ request ∈ requests, request.server ∈ servers) ∧
    (∀ server ∈ servers, ∃ request ∈ requests, group request.server = group server) ∧
    stat = addAnswers .zero requests ∧
    ∀ server entries added, ⟨server, some (entries, added)⟩ ∈ requests →
      answers server = some entries ∧ Picks entries added

/-- The statistic is right exactly when in every answer that comes up no server is full or
the last one of known space is. -/
theorem cluster_space_stat_right_iff {servers : List Int} (distinct : servers.Nodup)
    (complete : Complete group answers servers) {fuel : Nat} (enough : servers.length ≤ fuel) :
    SpaceStatRight group answers servers fuel ↔
      ∀ server entries, ComesUp group answers servers server → answers server = some entries →
        FullLast entries := by
  obtain ⟨requests, ran, asks⟩ := cluster_space_stat_spec complete (fun _ member => member)
    distinct distinct enough .zero
  constructor
  · rintro ⟨stat, others, same, _, _, _, _, picks⟩ server entries comes answer
    rw [ran] at same
    cases same
    have made := (asks.answered server entries _).mpr ⟨comes, answer, rfl⟩
    exact (picks_iff entries).mp (picks server entries _ made).2
  · intro order
    refine ⟨_, requests, ran, asks.once, asks.within, asks.groups, rfl, ?_⟩
    intro server entries added made
    obtain ⟨comes, answer, rfl⟩ := (asks.answered server entries added).mp made
    exact ⟨answer, (picks_iff entries).mpr (order server entries comes answer)⟩

end Requests

/-- Two servers of one group, the first one full. -/
def fullReplica (server : Int) : Option (List FSClientServerSpaceStat) :=
  if server = 1 then none else some [⟨1, ⟨100, 0, 100⟩⟩, ⟨2, ⟨100, 40, 60⟩⟩]

/-- The same in the other order. -/
def fullReplicaLast (server : Int) : Option (List FSClientServerSpaceStat) :=
  if server = 1 then none else some [⟨2, ⟨100, 40, 60⟩⟩, ⟨1, ⟨100, 0, 100⟩⟩]

theorem cluster_space_stat_right_full_last :
    SpaceStatRight (fun _ => ()) fullReplicaLast [1, 2] 2 :=
  (cluster_space_stat_right_iff (fun _ => ()) fullReplicaLast (by decide) (by
    intro server member entries answer
    simp only [List.mem_cons, List.not_mem_nil, or_false] at member
    rcases member with rfl | rfl
    · cases answer
    · cases answer
      decide) le_rfl).mpr (by
    intro server entries comes answer
    have members := comes.1
    simp only [List.mem_cons, List.not_mem_nil, or_false] at members
    rcases members with rfl | rfl
    · cases answer
    · cases answer
      exact Or.inr (Or.inr ⟨_, rfl, rfl⟩))

/-- The full server comes first: the client finds 40 free where nothing is. -/
theorem cluster_space_stat_hides_full_server :
    cluster_space_stat fullReplica 2 [1, 2] .zero = some (.ok, ⟨100, 40, 60⟩,
        [⟨1, none⟩, ⟨2, some ([⟨1, ⟨100, 0, 100⟩⟩, ⟨2, ⟨100, 40, 60⟩⟩], ⟨100, 40, 60⟩)⟩]) ∧
      ¬SpaceStatRight (fun _ => ()) fullReplica [1, 2] 2 := by
  have ran : cluster_space_stat fullReplica 2 [1, 2] .zero = some (.ok, ⟨100, 40, 60⟩,
      [⟨1, none⟩, ⟨2, some ([⟨1, ⟨100, 0, 100⟩⟩, ⟨2, ⟨100, 40, 60⟩⟩], ⟨100, 40, 60⟩)⟩]) := by
    decide
  refine ⟨ran, ?_⟩
  rintro ⟨stat, requests, same, _, _, _, _, picks⟩
  rw [ran] at same
  cases same
  have wrong := (picks 2 _ _ (List.mem_cons_of_mem _ List.mem_cons_self)).2.2 (by decide)
  obtain ⟨entry, _, equal, least⟩ := wrong
  have low := least ⟨1, ⟨100, 0, 100⟩⟩ (by decide)
  rw [← equal] at low
  exact absurd low (by decide)

end FastStore.Client
