import FastStore.Api.PrereadSound

/-!
# Runs of the read-ahead table

Between an allocation and its list, and between a list and its release, an entry is in
no list.  The two functions of the table that handle one entry are made of four moves:
allocate, unlink, link and free.  A ledger compares the entries that were inserted with
the releases of their buffers: over any sequence of calls they differ by the entries
that the table still holds.
-/

namespace FastStore.Api

open FastStore.Storage FastStore.Util

namespace PrereadTable

variable {t : PrereadTable} {lists : SFTwoIdsHashKey → List Nat} {loose : Finset Nat}
  {key : SFTwoIdsHashKey} {entry : FSPrereadSliceEntry} {se : Nat} {chain : List Nat}

/-- The entries of a buffer that are allocated. -/
def held (t : PrereadTable) (buffer : Nat) : Nat :=
  (t.live.filter fun n => (t.slice n).buffer = buffer).card

/-- Two tables have the same entries allocated, with the same data, and released the same
buffers. -/
structure SameEntries (t t' : PrereadTable) : Prop where
  slice : t'.slice = t.slice
  live : t'.live = t.live
  deleted : t'.deleted = t.deleted
  released : t'.released = t.released

/-! ## Lists of one block -/

/-- The lists where one block has a new one. -/
abbrev withList (lists : SFTwoIdsHashKey → List Nat) (key : SFTwoIdsHashKey) (chain : List Nat) :
    SFTwoIdsHashKey → List Nat :=
  Function.update lists key chain

/-- The lists of the other blocks do not care about pointers in the list of one. -/
theorem Holds.linked_others (holds : t.Holds lists loose) {next : Nat → Option Nat}
    (frame : ∀ n, n ∉ lists key → n ∉ loose → next n = t.next n) :
    ∀ other, other ≠ key → Linked next (t.head other) (lists other) := by
  intro other different
  refine (holds.linked other).congr fun n member => ?_
  exact frame n (holds.apart other key different n member) (holds.loose_apart other n member)

/-- The list of one block is changed; its entries come from that list and the loose ones,
and what it leaves out is loose or freed. -/
theorem Holds.change (holds : t.Holds lists loose) {t' : PrereadTable} {loose' : Finset Nat}
    (linked : Linked t'.next (t'.head key) chain)
    (block : (t'.blocks key).isSome ↔ chain ≠ [])
    (others : ∀ other, other ≠ key → t'.blocks other = t.blocks other)
    (linkedOthers : ∀ other, other ≠ key → Linked t'.next (t.head other) (lists other))
    (nodup : chain.Nodup) (source : ∀ n, n ∈ chain ∨ n ∈ loose' → n ∈ lists key ∨ n ∈ loose)
    (apart : ∀ n ∈ chain, n ∉ loose')
    (live : ∀ n, n ∈ t'.live ↔
      n ∈ t.live ∧ (n ∈ lists key ∨ n ∈ loose → n ∈ chain ∨ n ∈ loose')) :
    t'.Holds (withList lists key chain) loose' := by
  have atKey : withList lists key chain key = chain := Function.update_self _ _ _
  have atOther : ∀ other, other ≠ key → withList lists key chain other = lists other :=
    fun other different => Function.update_of_ne different _ _
  -- an entry of another list is neither in the old list nor loose
  have far : ∀ other, other ≠ key → ∀ n ∈ lists other, ¬(n ∈ lists key ∨ n ∈ loose) := by
    intro other different n member near
    cases near with
    | inl inKey => exact holds.apart other key different n member inKey
    | inr inLoose => exact holds.loose_apart other n member inLoose
  constructor
  · intro other
    by_cases same : other = key
    · subst same
      rw [atKey]
      exact linked
    · have head : t'.head other = t.head other := by
        rw [head, others other same]
        rfl
      rw [atOther other same, head]
      exact linkedOthers other same
  · intro other
    by_cases same : other = key
    · subst same
      rw [atKey]
      exact block
    · rw [atOther other same, others other same]
      exact holds.block other
  · intro n
    rw [live n]
    constructor
    · rintro ⟨alive, stays⟩
      cases (holds.live n).mp alive with
      | inl some =>
          obtain ⟨other, member⟩ := some
          by_cases same : other = key
          · subst same
            refine (stays (.inl member)).imp_left fun inChain => ⟨other, ?_⟩
            rw [atKey]
            exact inChain
          · refine .inl ⟨other, ?_⟩
            rw [atOther other same]
            exact member
      | inr inLoose =>
          refine (stays (.inr inLoose)).imp_left fun inChain => ⟨key, ?_⟩
          rw [atKey]
          exact inChain
    · intro held
      have near : n ∈ chain ∨ n ∈ loose' → n ∈ t.live := fun there =>
        (holds.live n).mpr ((source n there).imp_left fun member => ⟨key, member⟩)
      cases held with
      | inl some =>
          obtain ⟨other, member⟩ := some
          by_cases same : other = key
          · subst same
            rw [atKey] at member
            exact ⟨near (.inl member), fun _ => .inl member⟩
          · rw [atOther other same] at member
            exact ⟨holds.mem_live member, fun there => absurd there (far other same n member)⟩
      | inr inLoose => exact ⟨near (.inr inLoose), fun _ => .inr inLoose⟩
  · intro other
    by_cases same : other = key
    · subst same
      rw [atKey]
      exact nodup
    · rw [atOther other same]
      exact holds.nodup other
  · intro first second different n member
    by_cases firstKey : first = key
    · subst firstKey
      rw [atKey] at member
      rw [atOther second (Ne.symm different)]
      exact fun inSecond => far second (Ne.symm different) n inSecond (source n (.inl member))
    · rw [atOther first firstKey] at member
      by_cases secondKey : second = key
      · subst secondKey
        rw [atKey]
        exact fun inChain => far first firstKey n member (source n (.inl inChain))
      · rw [atOther second secondKey]
        exact holds.apart first second different n member
  · intro other n member
    by_cases same : other = key
    · subst same
      rw [atKey] at member
      exact apart n member
    · rw [atOther other same] at member
      exact fun inLoose => far other same n member (source n (.inr inLoose))

/-! ## The four moves -/

/-- A new entry is allocated and filled. -/
def allocate (t : PrereadTable) (se : Nat) (entry : FSPrereadSliceEntry) : PrereadTable :=
  { t with
    slice := Function.update t.slice se entry
    live := insert se t.live }

theorem Holds.allocate (holds : t.Holds lists loose) (fresh : se ∉ t.live) :
    (t.allocate se entry).Holds lists (insert se loose) where
  linked := holds.linked
  block := holds.block
  live n := by
    rw [PrereadTable.allocate, Finset.mem_insert, Finset.mem_insert, holds.live n]
    exact or_left_comm
  nodup := holds.nodup
  apart := holds.apart
  loose_apart key n member inLoose := by
    cases Finset.mem_insert.mp inLoose with
    | inl same => exact fresh (same ▸ holds.mem_live member)
    | inr old => exact holds.loose_apart key n member old

/-- An entry that is in no list is freed. -/
theorem Holds.free (holds : t.Holds lists loose) {n : Nat} (member : n ∈ loose)
    (set_conflict : Bool) :
    (t.obid_htable_free_slice n set_conflict).Holds lists (loose.erase n) where
  linked := holds.linked
  block := holds.block
  live other := by
    rw [obid_htable_free_slice, Finset.mem_erase, Finset.mem_erase, holds.live other, and_or_left]
    refine or_congr_left (and_iff_right_of_imp ?_)
    rintro ⟨key, inKey⟩ rfl
    exact holds.loose_apart key _ inKey member
  nodup := holds.nodup
  apart := holds.apart
  loose_apart key other inKey inLoose :=
    holds.loose_apart key other inKey (Finset.mem_of_mem_erase inLoose)

/-- The search stops at an entry of the thread, with the entry before it at hand. -/
theorem findSliceLoop_spec {tid fuel : Nat} {previous current : Option Nat}
    {found : Option Nat × Nat} (linked : Linked t.next current chain)
    (hit : t.findSliceLoop tid fuel previous current = some found) :
    ∃ before behind, chain = before ++ found.2 :: behind ∧
      found.1 = before.getLast?.or previous := by
  induction chain generalizing fuel previous current with
  | nil =>
      obtain rfl : current = none := linked
      cases fuel <;> cases hit
  | cons first rest ih =>
      obtain rfl := linked.1
      cases fuel with
      | zero => cases hit
      | succ fuel =>
          rw [findSliceLoop] at hit
          by_cases same : tid = (t.slice first).tid
          · rw [if_pos same] at hit
            cases hit
            exact ⟨[], rest, rfl, rfl⟩
          · rw [if_neg same] at hit
            obtain ⟨before, behind, split, last⟩ := ih linked.2 hit
            refine ⟨first :: before, behind, by rw [split]; rfl, ?_⟩
            rw [last, List.getLast?_cons]
            cases before.getLast? <;> rfl

/-- Unlinking an entry: what is left of the list of the block, and what does not change. -/
theorem obid_htable_remove_spec {before behind : List Nat} {n : Nat}
    (linked : Linked t.next (t.head key) (before ++ n :: behind))
    (nodup : (before ++ n :: behind).Nodup) (present : (t.blocks key).isSome) :
    Linked (t.obid_htable_remove key (before.getLast?, n)).next
        ((t.obid_htable_remove key (before.getLast?, n)).head key) (before ++ behind) ∧
      (((t.obid_htable_remove key (before.getLast?, n)).blocks key).isSome ↔
        before ++ behind ≠ []) ∧
      (∀ other, other ≠ key →
        (t.obid_htable_remove key (before.getLast?, n)).blocks other = t.blocks other) ∧
      (∀ m, m ∉ before → (t.obid_htable_remove key (before.getLast?, n)).next m = t.next m) ∧
      SameEntries t (t.obid_htable_remove key (before.getLast?, n)) := by
  cases before.eq_nil_or_concat with
  | inl empty =>
      subst empty
      have behindLinked : Linked t.next (t.next n) behind := linked.2
      obtain ⟨next, slice, live, deleted, marked, released⟩ :=
        check_remove_block_same (t.setHead key (t.next n)) key
      have same : t.obid_htable_remove key (none, n) =
          (t.setHead key (t.next n)).check_remove_block key := rfl
      rw [List.getLast?_nil, same]
      refine ⟨?_, ?_, fun other apart => ?_, fun m _ => by rw [next]; rfl,
        slice, live, deleted, released⟩
      · rw [next, check_remove_block_head, setHead_head]
        exact behindLinked
      · rw [check_remove_block_isSome _ _ (setHead_isSome _ _ _), setHead_head]
        exact head_ne_none_iff behindLinked
      · rw [check_remove_block_other _ apart]
        exact Function.update_of_ne apart _ _
  | inr some =>
      obtain ⟨front, previous, split⟩ := some
      rw [List.concat_eq_append] at split
      subst split
      have same : t.obid_htable_remove key ((front ++ [previous]).getLast?, n) =
          { t with next := Function.update t.next previous (t.next n) } := by
        rw [obid_htable_remove, List.getLast?_concat]
      rw [same]
      rw [List.append_assoc] at linked nodup
      refine ⟨?_, ?_, fun _ _ => rfl, fun m outside => ?_, rfl, rfl, rfl, rfl⟩
      · rw [List.append_assoc]
        exact linked.unlink_behind nodup
      · exact iff_of_true present (by simp)
      · refine Function.update_of_ne ?_ _ _
        rintro rfl
        exact outside (List.mem_append_right _ List.mem_cons_self)

/-- The entry that the search found is taken out of its list. -/
theorem Holds.unlink (holds : t.Holds lists loose) {tid : Nat} {found : Option Nat × Nat}
    (hit : t.obid_htable_find_slice key tid = some found) :
    found.2 ∈ lists key ∧
      (∃ chain, (t.obid_htable_remove key found).Holds (withList lists key chain)
        (insert found.2 loose)) ∧
      SameEntries t (t.obid_htable_remove key found) := by
  obtain ⟨before, behind, split, last⟩ := findSliceLoop_spec (holds.linked key) hit
  rw [Option.or_none] at last
  have nodup := holds.nodup key
  have linked := holds.linked key
  have present := (holds.block key).mpr (by rw [split]; simp)
  have pair : found = (before.getLast?, found.2) := by rw [← last]
  have inList : ∀ n, n ∈ lists key ↔ n = found.2 ∨ n ∈ before ++ behind := by
    intro n
    rw [split, List.mem_append, List.mem_cons, List.mem_append]
    exact or_left_comm
  rw [split] at nodup linked
  have left := List.nodup_cons.mp (List.nodup_middle.mp nodup)
  obtain ⟨stays, block, others, frame, same⟩ := obid_htable_remove_spec linked nodup present
  rw [← pair] at stays block others frame same
  have linkedOthers := @Holds.linked_others t lists loose key holds _ fun n outside _ =>
    frame n fun member => outside ((inList n).mpr (.inr (List.mem_append_left _ member)))
  refine ⟨(inList _).mpr (.inl rfl), ⟨before ++ behind, holds.change stays block others
    linkedOthers left.2 ?_ ?_ ?_⟩, same⟩
  · intro n there
    rw [inList n]
    cases there with
    | inl inChain => exact .inl (.inr inChain)
    | inr inLoose => exact (Finset.mem_insert.mp inLoose).imp_left Or.inl
  · intro n inChain inLoose
    cases Finset.mem_insert.mp inLoose with
    | inl gone => exact left.1 (gone ▸ inChain)
    | inr old => exact holds.loose_apart key n ((inList n).mpr (.inr inChain)) old
  · intro n
    rw [same.live]
    refine (and_iff_left_of_imp fun _ there => ?_).symm
    rw [Finset.mem_insert]
    cases there with
    | inl inKey => exact ((inList n).mp inKey).elim (fun same => .inr (.inl same)) .inl
    | inr inLoose => exact .inr (.inr inLoose)

/-- A loose entry is put in front of the list of a block. -/
theorem Holds.link (holds : t.Holds lists loose) (member : se ∈ loose)
    (key : SFTwoIdsHashKey) (blockMemory : Bool) :
    ∃ lists', (t.linkSlice key se blockMemory).2.Holds lists' (loose.erase se) := by
  have outside : se ∉ lists key := fun inKey => holds.loose_apart key se inKey member
  have front : ∀ n, n ∈ se :: lists key ∨ n ∈ loose.erase se ↔ n ∈ lists key ∨ n ∈ loose := by
    intro n
    rw [List.mem_cons, Finset.mem_erase]
    by_cases same : n = se
    · subst same
      exact iff_of_true (.inl (.inl rfl)) (.inr member)
    · rw [or_iff_right same, and_iff_right same]
  have apart : ∀ n ∈ se :: lists key, n ∉ loose.erase se := by
    intro n inChain inLoose
    obtain ⟨different, old⟩ := Finset.mem_erase.mp inLoose
    cases List.mem_cons.mp inChain with
    | inl same => exact different same
    | inr inKey => exact holds.loose_apart key n inKey old
  have nodup : (se :: lists key).Nodup := List.nodup_cons.mpr ⟨outside, holds.nodup key⟩
  have linked := (holds.linked key).link_first outside
  -- in a block that is there, and in a new one
  have linkedIn : ({ t with next := Function.update t.next se (t.head key) }.setHead key
      (some se)).Holds (withList lists key (se :: lists key)) (loose.erase se) := by
    refine holds.change ?_ ?_ ?_ ?_ nodup (fun n => (front n).mp) apart fun n => ?_
    · rw [setHead_head]
      exact linked
    · exact iff_of_true (setHead_isSome _ _ _) nofun
    · exact fun other different => Function.update_of_ne different _ _
    · refine holds.linked_others fun n _ notLoose => Function.update_of_ne ?_ _ _
      rintro rfl
      exact notLoose member
    · exact (and_iff_left_of_imp fun _ => (front n).mpr).symm
  cases found : t.blocks key with
  | some block =>
      have same : t.linkSlice key se blockMemory = (.ok,
          { t with next := Function.update t.next se (t.head key) }.setHead key (some se)) := by
        rw [linkSlice, found, block_head found]
      exact ⟨_, by rw [same]; exact linkedIn⟩
  | none =>
      cases blockMemory with
      | true =>
          have head : t.head key = none := by
            rw [PrereadTable.head, found]
            rfl
          have same : t.linkSlice key se true = (.ok,
              { t with next := Function.update t.next se (t.head key) }.setHead key (some se)) := by
            rw [linkSlice, found, head]
            rfl
          exact ⟨_, by rw [same]; exact linkedIn⟩
      | false =>
          have same : t.linkSlice key se false = (.enomem, { t with live := t.live.erase se }) := by
            rw [linkSlice, found]
            rfl
          rw [same]
          have freed := holds.free member false
          exact ⟨lists, freed.linked, freed.block, freed.live, freed.nodup, freed.apart,
            freed.loose_apart⟩

/-! ## The ledger -/

/-- The insertions that a table accounts for: the entries it released and those it holds. -/
def accounted (t : PrereadTable) (buffer : Nat) : Nat := t.released buffer + t.held buffer

theorem SameEntries.accounted {t' : PrereadTable} (same : SameEntries t t') (b : Nat) :
    t'.accounted b = t.accounted b := by
  rw [PrereadTable.accounted, held, same.released, same.live, same.slice]
  rfl

theorem accounted_allocate (fresh : se ∉ t.live) (entry : FSPrereadSliceEntry) (b : Nat) :
    (t.allocate se entry).accounted b = t.accounted b + if entry.buffer = b then 1 else 0 := by
  have old : (t.live.filter fun n => (Function.update t.slice se entry n).buffer = b) =
      t.live.filter fun n => (t.slice n).buffer = b := by
    refine Finset.filter_congr fun n member => ?_
    have different : n ≠ se := fun same => fresh (same ▸ member)
    rw [Function.update_of_ne different]
  have filtered : ((t.allocate se entry).live.filter fun n =>
      ((t.allocate se entry).slice n).buffer = b) =
        if entry.buffer = b then insert se (t.live.filter fun n => (t.slice n).buffer = b)
        else t.live.filter fun n => (t.slice n).buffer = b := by
    rw [allocate, Finset.filter_insert, old]
    simp only [Function.update_self]
  rw [accounted, accounted, held, held, filtered, Nat.add_assoc]
  split
  · rw [Finset.card_insert_of_notMem fun member => fresh (Finset.mem_of_mem_filter _ member)]
    rfl
  · rfl

/-- Removing an allocated entry, where its buffer is not released. -/
theorem held_erase {n : Nat} (alive : n ∈ t.live) (b : Nat) :
    ((t.live.erase n).filter fun n => (t.slice n).buffer = b).card +
      (if (t.slice n).buffer = b then 1 else 0) = t.held b := by
  rw [held, Finset.filter_erase]
  split
  · next same => exact Finset.card_erase_add_one (Finset.mem_filter.mpr ⟨alive, same⟩)
  · next other =>
      have absent : n ∉ t.live.filter fun n => (t.slice n).buffer = b := fun member =>
        other (Finset.mem_filter.mp member).2
      rw [Finset.erase_eq_of_notMem absent, Nat.add_zero]

theorem accounted_free {n : Nat} (alive : n ∈ t.live) (set_conflict : Bool) (b : Nat) :
    (t.obid_htable_free_slice n set_conflict).accounted b = t.accounted b := by
  have held := held_erase alive b
  rw [accounted, accounted, ← held, PrereadTable.held, obid_htable_free_slice]
  dsimp only
  by_cases same : (t.slice n).buffer = b
  · subst same
    rw [Function.update_self, if_pos rfl]
    omega
  · rw [Function.update_of_ne (Ne.symm same), if_neg same]
    rfl

/-- Linking accounts for the entry only if there is memory for the block entry. -/
theorem accounted_link (alive : se ∈ t.live) (key : SFTwoIdsHashKey) (blockMemory : Bool)
    (b : Nat) :
    ((t.linkSlice key se blockMemory).2.accounted b +
      if (t.linkSlice key se blockMemory).1 ≠ .ok ∧ (t.slice se).buffer = b then 1 else 0) =
      t.accounted b := by
  rw [linkSlice]
  split
  · rw [if_neg (fun failed => failed.1 rfl)]
    rfl
  · split
    · rw [if_neg (fun failed => failed.1 rfl)]
      rfl
    · have held := held_erase alive b
      rw [accounted, accounted, ← held, PrereadTable.held]
      by_cases same : (t.slice se).buffer = b
      · rw [if_pos ⟨nofun, same⟩, if_pos same]
        rfl
      · rw [if_neg fun both => same both.2, if_neg same]
        rfl

theorem linkSlice_slice (t : PrereadTable) (key : SFTwoIdsHashKey) (se : Nat) (blockMemory : Bool) :
    (t.linkSlice key se blockMemory).2.slice = t.slice := by
  rw [linkSlice]
  split
  · rfl
  · split
    · rfl
    · rfl

/-! ## The calls -/

theorem Holds.live_of_loose (holds : t.Holds lists loose) {n : Nat} (member : n ∈ loose) :
    n ∈ t.live :=
  (holds.live n).mpr (.inr member)

/-- What is not accounted for because of an error was not inserted. -/
theorem ledger_split {result : Errno} {after before : Nat} {mine : Prop} [Decidable mine]
    (link : (after + if result ≠ .ok ∧ mine then 1 else 0) = before + if mine then 1 else 0) :
    after = before + if result = .ok ∧ mine then 1 else 0 := by
  by_cases done : result = .ok <;> by_cases buffer : mine <;> simp_all

/-- An insertion keeps the lists, and accounts for one more entry where it succeeds. -/
theorem Holds.inserted (holds : t.Holds lists ∅) (key : SFTwoIdsHashKey)
    (entry : FSPrereadSliceEntry) (memory : Option Nat) (fresh : ∀ se ∈ memory, se ∉ t.live)
    (blockMemory : Bool) :
    (∃ lists', (t.preread_obid_htable_insert key entry memory blockMemory).2.Holds lists' ∅) ∧
      ∀ b, (t.preread_obid_htable_insert key entry memory blockMemory).2.accounted b =
        t.accounted b + if (t.preread_obid_htable_insert key entry memory blockMemory).1 = .ok ∧
          entry.buffer = b then 1 else 0 := by
  cases memory with
  | none =>
      refine ⟨⟨lists, holds⟩, fun b => ?_⟩
      rw [preread_obid_htable_insert, if_neg fun both => absurd both.1 nofun]
      rfl
  | some se =>
      have fresh : se ∉ t.live := fresh se rfl
      have new : (t.allocate se entry).Holds lists {se} := holds.allocate fresh
      have filled : (t.allocate se entry).slice se = entry := Function.update_self _ _ _
      have count := accounted_allocate fresh entry
      cases hit : (t.allocate se entry).obid_htable_find_slice key entry.tid with
      | none =>
          have same : t.preread_obid_htable_insert key entry (some se) blockMemory =
              (t.allocate se entry).linkSlice key se blockMemory := by
            rw [preread_obid_htable_insert]
            dsimp only
            rw [← PrereadTable.allocate, hit]
          rw [same]
          obtain ⟨lists', linked⟩ := new.link (Finset.mem_singleton_self se) key blockMemory
          rw [Finset.erase_singleton] at linked
          refine ⟨⟨lists', linked⟩, fun b => ?_⟩
          have link := accounted_link
            (new.live_of_loose (Finset.mem_singleton_self se)) key blockMemory b
          rw [filled, count b] at link
          exact ledger_split link
      | some found =>
          obtain ⟨inList, ⟨chain, unlinked⟩, data⟩ := new.unlink hit
          have different : found.2 ≠ se := fun same =>
            new.loose_apart key found.2 inList (Finset.mem_singleton.mpr same)
          have inLoose : se ∈ insert found.2 ({se} : Finset Nat) :=
            Finset.mem_insert_of_mem (Finset.mem_singleton_self se)
          have same : t.preread_obid_htable_insert key entry (some se) blockMemory =
              ((((t.allocate se entry).obid_htable_remove key found).linkSlice key se blockMemory).1,
                (((t.allocate se entry).obid_htable_remove key found).linkSlice key se
                  blockMemory).2.obid_htable_free_slice found.2 false) := by
            rw [preread_obid_htable_insert]
            dsimp only
            rw [← PrereadTable.allocate, hit]
          rw [same]
          dsimp only
          obtain ⟨lists', linked⟩ := unlinked.link inLoose key blockMemory
          have old : (insert found.2 ({se} : Finset Nat)).erase se = {found.2} := by
            rw [Finset.erase_insert_of_ne different, Finset.erase_singleton]
            rfl
          rw [old] at linked
          have freed := linked.free (Finset.mem_singleton_self found.2) false
          rw [Finset.erase_singleton] at freed
          refine ⟨⟨lists', freed⟩, fun b => ?_⟩
          have link := accounted_link (unlinked.live_of_loose inLoose) key blockMemory b
          rw [data.slice, filled, data.accounted b, count b] at link
          rw [accounted_free (linked.live_of_loose (Finset.mem_singleton_self found.2))]
          exact ledger_split link

/-- A deletion keeps the lists and what is accounted for. -/
theorem Holds.removed (holds : t.Holds lists ∅) (key : SFTwoIdsHashKey) (tid : Nat) :
    (∃ lists', (t.preread_obid_htable_delete key tid).2.Holds lists' ∅) ∧
      ∀ b, (t.preread_obid_htable_delete key tid).2.accounted b = t.accounted b := by
  rw [preread_obid_htable_delete]
  cases hit : t.obid_htable_find_slice key tid with
  | none => exact ⟨⟨lists, holds⟩, fun _ => rfl⟩
  | some found =>
      obtain ⟨-, ⟨chain, unlinked⟩, data⟩ := holds.unlink hit
      have inLoose := Finset.mem_insert_self found.2 ∅
      have freed := unlinked.free inLoose false
      rw [Finset.erase_insert (Finset.notMem_empty _)] at freed
      refine ⟨⟨_, freed⟩, fun b => ?_⟩
      exact (accounted_free (unlinked.live_of_loose inLoose) false b).trans (data.accounted b)

/-- A right invalidation keeps the lists and what is accounted for. -/
theorem Holds.invalidated (holds : t.Holds lists ∅) {ssize : FSSliceSize}
    (right : InvalidateRight t lists key ssize) :
    (∃ lists', (t.preread_invalidate_conflict_slices key ssize).2.Holds lists' ∅) ∧
      ∀ b, (t.preread_invalidate_conflict_slices key ssize).2.accounted b = t.accounted b := by
  have nodup := holds.nodup key
  have subset : ∀ n ∈ (lists key).filter (t.conflicts ssize), n ∈ t.live := fun n member =>
    holds.mem_live (List.mem_filter.mp member).1
  constructor
  · refine ⟨withList lists key ((lists key).filter fun n => !t.conflicts ssize n), ?_⟩
    refine holds.change right.kept right.block (fun other apart => (right.others other apart).1)
      (fun other apart => (right.others other apart).2) (nodup.filter _) ?_
      (fun _ _ => Finset.notMem_empty _) fun n => ?_
    · intro n there
      exact .inl (there.elim (fun kept => (List.mem_filter.mp kept).1)
        fun none => absurd none (Finset.notMem_empty n))
    · rw [right.live, Finset.mem_sdiff, List.mem_toFinset, List.mem_filter, List.mem_filter]
      refine and_congr_right fun _ => ?_
      cases t.conflicts ssize n <;> simp
  · intro b
    have card : (((lists key).filter (t.conflicts ssize)).countP fun n => (t.slice n).buffer = b) =
        (((lists key).filter (t.conflicts ssize)).toFinset.filter
          fun n => (t.slice n).buffer = b).card := by
      rw [List.countP_eq_length_filter, ← List.toFinset_card_of_nodup ((nodup.filter _).filter _),
        List.toFinset_filter]
      simp only [decide_eq_true_eq]
    have inside : ((lists key).filter (t.conflicts ssize)).toFinset ⊆ t.live := fun n member =>
      subset n (List.mem_toFinset.mp member)
    rw [accounted, accounted, held, held, right.freed, right.slice, right.live, card,
      Nat.add_assoc, ← Finset.card_union_of_disjoint, ← Finset.filter_union,
      Finset.union_sdiff_of_subset inside]
    exact Finset.disjoint_filter_filter disjoint_sdiff_self_right

end PrereadTable

/-! ## Sequences of calls -/

/-- A table, and how often each buffer was inserted into it. -/
structure PrereadRun where
  table : PrereadTable
  inserted : Nat → Nat

/-- The calls of the table, with the memory they get, and what others do to the flags of a
buffer. -/
inductive PrereadCall where
  | insert (key : SFTwoIdsHashKey) (entry : FSPrereadSliceEntry) (memory : Option Nat)
      (blockMemory : Bool)
  | delete (key : SFTwoIdsHashKey) (tid : Nat)
  | invalidate (key : SFTwoIdsHashKey) (ssize : FSSliceSize)
  | setFlags (buffer : Nat) (deleted conflict : Bool)
  deriving DecidableEq, Repr

namespace PrereadRun

/-- An allocation gives an entry that is free. -/
def Enabled (s : PrereadRun) : PrereadCall → Prop
  | .insert _ _ memory _ => ∀ se ∈ memory, se ∉ s.table.live
  | .delete _ _ => True
  | .invalidate _ _ => True
  | .setFlags _ _ _ => True

instance decidableEnabled (s : PrereadRun) : ∀ call, Decidable (s.Enabled call)
  | .insert _ _ memory _ => inferInstanceAs (Decidable (∀ se ∈ memory, se ∉ s.table.live))
  | .delete _ _ => .isTrue trivial
  | .invalidate _ _ => .isTrue trivial
  | .setFlags _ _ _ => .isTrue trivial

def next (s : PrereadRun) : PrereadCall → PrereadRun
  | .insert key entry memory blockMemory =>
      let result := s.table.preread_obid_htable_insert key entry memory blockMemory
      { table := result.2
        inserted := fun b =>
          s.inserted b + if result.1 = .ok ∧ entry.buffer = b then 1 else 0 }
  | .delete key tid => { s with table := (s.table.preread_obid_htable_delete key tid).2 }
  | .invalidate key ssize =>
      { s with table := (s.table.preread_invalidate_conflict_slices key ssize).2 }
  | .setFlags buffer deleted conflict =>
      { s with
        table :=
          { s.table with
            deleted := Function.update s.table.deleted buffer deleted
            conflict := Function.update s.table.conflict buffer conflict } }

abbrev step : StepRel PrereadRun PrereadCall := .ofNext Enabled next

/-- The table after `preread_obid_htable_init`. -/
structure Init (s : PrereadRun) : Prop where
  blocks : ∀ key, s.table.blocks key = none
  live : s.table.live = ∅
  inserted : ∀ b, s.inserted b = 0
  released : ∀ b, s.table.released b = 0

/-- An invalidation finds no two neighbours that it conflicts with. -/
def Spread (s : PrereadRun) : PrereadCall → Prop
  | .invalidate key ssize => Spaced (s.table.conflicts ssize) (s.table.entries key)
  | _ => True

/-- The table holds lists, and every inserted entry was released or is still held. -/
structure Sound (s : PrereadRun) : Prop where
  holds : ∃ lists, s.table.Holds lists ∅
  ledger : ∀ b, s.inserted b = s.table.released b + s.table.held b

theorem Init.sound {s : PrereadRun} (init : Init s) : Sound s where
  holds := by
    refine ⟨fun _ => [], ?_, ?_, ?_, ?_, ?_, ?_⟩
    · intro key
      rw [PrereadTable.head, init.blocks key]
      rfl
    · intro key
      rw [init.blocks key]
      exact iff_of_false (by simp) fun some => some rfl
    · intro n
      rw [init.live]
      simp
    · exact fun _ => List.nodup_nil
    · exact fun _ _ _ _ none => absurd none (List.not_mem_nil)
    · exact fun _ _ none => absurd none (List.not_mem_nil)
  ledger b := by
    rw [init.inserted b, init.released b, PrereadTable.held, init.live]
    rfl

theorem Sound.step {s : PrereadRun} (sound : Sound s) {call : PrereadCall}
    (enabled : s.Enabled call) (spread : s.Spread call) : Sound (s.next call) := by
  obtain ⟨lists, holds⟩ := sound.holds
  cases call with
  | insert key entry memory blockMemory =>
      obtain ⟨lists', count⟩ := holds.inserted key entry memory enabled blockMemory
      refine ⟨lists', fun b => ?_⟩
      have same := count b
      rw [PrereadTable.accounted, PrereadTable.accounted, ← sound.ledger b] at same
      exact same.symm
  | delete key tid =>
      obtain ⟨lists', count⟩ := holds.removed key tid
      exact ⟨lists', fun b => (sound.ledger b).trans (count b).symm⟩
  | invalidate key ssize =>
      have spaced : Spaced (s.table.conflicts ssize) (lists key) := holds.entries_eq key ▸ spread
      obtain ⟨lists', count⟩ := holds.invalidated (holds.invalidate_right spaced)
      exact ⟨lists', fun b => (sound.ledger b).trans (count b).symm⟩
  | setFlags buffer deleted conflict =>
      exact ⟨⟨lists, holds.linked, holds.block, holds.live, holds.nodup, holds.apart,
        holds.loose_apart⟩, sound.ledger⟩

theorem sound_of_reached {s : PrereadRun} (reached : Reachable (step.guarded Spread) Init s) :
    Sound s :=
  reached.invariant (fun _ init => init.sound) fun _ _ _ sound taken =>
    taken.2.2 ▸ sound.step taken.2.1 taken.1

/-- The invalidation of a block removes exactly the conflicting entries where no two of
them are neighbours in the list, and nowhere else; in runs where this is so at every
invalidation the table holds no freed entry, and it released each buffer once for each
insertion, but for the entries that it still holds. -/
theorem preread_invalidate_right_iff (key : SFTwoIdsHashKey) (ssize : FSSliceSize) :
    (∀ (t : PrereadTable) (lists : SFTwoIdsHashKey → List Nat), t.Holds lists ∅ →
      (t.InvalidateRight lists key ssize ↔ Spaced (t.conflicts ssize) (lists key))) ∧
    ∀ s, Reachable (step.guarded Spread) Init s →
      (∃ lists, s.table.Holds lists ∅) ∧
      ∀ b, s.inserted b = s.table.released b + s.table.held b := by
  constructor
  · intro t lists holds
    exact holds.invalidate_right_iff
  · intro s reached
    have sound := sound_of_reached reached
    exact ⟨sound.holds, sound.ledger⟩

/-- A table in which nothing is registered. -/
def emptyRun : PrereadRun where
  table := ⟨fun _ => ⟨0, ⟨0, 0⟩, 0⟩, fun _ => none, ∅, fun _ => none, fun _ => false,
    fun _ => false, fun _ => 0⟩
  inserted := fun _ => 0

theorem init_emptyRun : Init emptyRun := ⟨fun _ => rfl, rfl, fun _ => rfl, fun _ => rfl⟩

/-- A thread reads ahead: its entry is the list of the block. -/
def oneReader : List PrereadCall := [.insert ⟨1, 0⟩ ⟨1, ⟨0, 10⟩, 0⟩ (some 0) true]

/-- Two threads read ahead ranges of one block that overlap. -/
def twoReaders : List PrereadCall :=
  oneReader ++ [.insert ⟨1, 0⟩ ⟨2, ⟨5, 10⟩, 1⟩ (some 1) true]

theorem preread_invalidate_right_one :
    ∃ lists, (oneReader.foldl next emptyRun).table.Holds lists ∅ ∧
      (oneReader.foldl next emptyRun).table.InvalidateRight lists ⟨1, 0⟩ ⟨5, 10⟩ := by
  have start : Reachable (step.guarded Spread) Init emptyRun := .start init_emptyRun
  have reached : Reachable (step.guarded Spread) Init (oneReader.foldl next emptyRun) :=
    start.followMeeting oneReader ⟨⟨trivial, by decide⟩, trivial⟩
  have right := preread_invalidate_right_iff ⟨1, 0⟩ ⟨5, 10⟩
  obtain ⟨lists, holds⟩ := (right.2 _ reached).1
  refine ⟨lists, holds, (right.1 _ lists holds).mpr ?_⟩
  have entries : (oneReader.foldl next emptyRun).table.entries ⟨1, 0⟩ = [0] := by decide +kernel
  rw [← holds.entries_eq, entries]
  exact List.isChain_singleton 0

/-- A write over both ranges leaves the second entry in the list, and frees it. -/
theorem preread_invalidate_keeps_freed :
    (¬∀ (t : PrereadTable) (lists : SFTwoIdsHashKey → List Nat), t.Holds lists ∅ →
      ∀ (key : SFTwoIdsHashKey) (ssize : FSSliceSize), t.InvalidateRight lists key ssize) ∧
    ¬∀ s, Reachable step Init s → ∀ key n, s.table.head key = some n → n ∈ s.table.live := by
  have start : Reachable step Init emptyRun := .start init_emptyRun
  have spread : Reachable (step.guarded Spread) Init emptyRun := .start init_emptyRun
  constructor
  · intro claim
    have reached : Reachable (step.guarded Spread) Init (twoReaders.foldl next emptyRun) :=
      spread.followMeeting twoReaders ⟨⟨trivial, by decide⟩, ⟨trivial, by decide⟩, trivial⟩
    obtain ⟨lists, holds⟩ := (sound_of_reached reached).holds
    have spaced := holds.invalidate_right_iff.mp (claim _ lists holds ⟨1, 0⟩ ⟨0, 20⟩)
    have entries : (twoReaders.foldl next emptyRun).table.entries ⟨1, 0⟩ = [1, 0] := by
      decide +kernel
    rw [← holds.entries_eq, entries] at spaced
    exact (List.isChain_cons_cons.mp spaced).1 (by decide +kernel)
  · intro claim
    have reached := start.follow (twoReaders ++ [.invalidate ⟨1, 0⟩ ⟨0, 20⟩]) (by decide +kernel)
    exact absurd (claim _ reached ⟨1, 0⟩ 0 (by decide +kernel)) (by decide +kernel)

end PrereadRun

end FastStore.Api
