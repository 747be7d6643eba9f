import FastStore.Cluster.TopologyEvents

/-!
# What a package of topology events writes

The parts of a package are written one after another, for status and version each at its
own place.  The flags of the masters depend on each other: a part that says master takes the
flag of the old master away.  At the follower flags and masters agree all the time.
-/

namespace FastStore.Cluster

open FastStore.Util

variable {δ : Type} [DecidableEq δ]

/-- The words after the entries are written one after another. -/
def written {α : Type} (words : δ → α) (entries : List (δ × α)) : δ → α :=
  entries.foldl (fun words entry => Function.update words entry.1 entry.2) words

theorem written_append {α : Type} (words : δ → α) (first second : List (δ × α)) :
    written words (first ++ second) = written (written words first) second :=
  List.foldl_append

/-- The value at one place depends on the value there. -/
theorem written_congr {α : Type} {words others : δ → α} {ds : δ} (same : words ds = others ds)
    (entries : List (δ × α)) : written words entries ds = written others entries ds := by
  induction entries generalizing words others with
  | nil => exact same
  | cons entry rest ih =>
      apply ih
      dsimp only
      by_cases own : ds = entry.1
      · rw [own, Function.update_self, Function.update_self]
      · rw [Function.update_of_ne own, Function.update_of_ne own, same]

namespace TopologyWords

variable (config : TopologyConfig δ) (words : TopologyWords δ) {ds : δ}

omit [DecidableEq δ] in
theorem serverOf_myself {group : Nat} {own : δ} (found : myself config group = some own) :
    config.serverOf own = config.follower := by
  have holds := List.find?_some found
  simp only [decide_eq_true_eq] at holds
  exact holds.1

theorem onMasterChange_status (other : config.serverOf ds ≠ config.follower) (group : Nat)
    (old new : Option δ) : (onMasterChange config words group old new).status ds = words.status ds := by
  unfold onMasterChange
  split
  · rfl
  · rename_i own found
    have ne : ds ≠ own := by
      rintro rfl
      exact other (serverOf_myself config found)
    split_ifs
    · rfl
    · exact Function.update_of_ne ne _ _
    · exact Function.update_of_ne ne _ _
    · rfl

theorem onMasterChange_version (group : Nat) (old new : Option δ) :
    (onMasterChange config words group old new).version = words.version := by
  unfold onMasterChange
  split
  · rfl
  · split_ifs <;> rfl

theorem onMasterChange_masters (group : Nat) (old new : Option δ) :
    (onMasterChange config words group old new).masters = words.masters := by
  unfold onMasterChange
  split
  · rfl
  · split_ifs <;> rfl

theorem pushStatus_status (other : config.serverOf ds ≠ config.follower) (part : PushBodyPart δ) :
    (words.pushStatus config part).status ds =
      Function.update words.status part.ds part.status ds := by
  unfold pushStatus
  split_ifs with own accepted
  · have ne : ds ≠ part.ds := by
      rintro rfl
      exact other own
    rw [Function.update_of_ne ne]
    exact Function.update_of_ne ne _ _
  · have ne : ds ≠ part.ds := by
      rintro rfl
      exact other own
    rw [Function.update_of_ne ne]
  · rfl

theorem pushStatus_version (other : config.serverOf ds ≠ config.follower) (part : PushBodyPart δ) :
    (words.pushStatus config part).version ds =
      Function.update words.version part.ds part.version ds := by
  unfold pushStatus
  split_ifs with own accepted
  · have ne : ds ≠ part.ds := by
      rintro rfl
      exact other own
    rw [Function.update_of_ne ne]
  · have ne : ds ≠ part.ds := by
      rintro rfl
      exact other own
    rw [Function.update_of_ne ne]
  · rfl

theorem pushEntry_status (other : config.serverOf ds ≠ config.follower) (part : PushBodyPart δ) :
    (words.pushEntry config part).status ds =
      Function.update words.status part.ds part.status ds := by
  unfold pushEntry
  dsimp only
  split_ifs
  · exact words.pushStatus_status config other part
  · rw [onMasterChange_status config _ other]
    exact words.pushStatus_status config other part

theorem pushEntry_version (other : config.serverOf ds ≠ config.follower) (part : PushBodyPart δ) :
    (words.pushEntry config part).version ds =
      Function.update words.version part.ds part.version ds := by
  unfold pushEntry
  dsimp only
  split_ifs
  · exact words.pushStatus_version config other part
  · rw [onMasterChange_version]
    exact words.pushStatus_version config other part

theorem pushEntry_masters (part : PushBodyPart δ) :
    (words.pushEntry config part).masters =
      words.masters.pushMaster config part.ds part.isMaster := by
  unfold pushEntry
  dsimp only
  split_ifs
  · rfl
  · rw [onMasterChange_masters]

/-- What a package writes. -/
theorem leaderPush_status (other : config.serverOf ds ≠ config.follower)
    (parts : List (PushBodyPart δ)) :
    (words.leaderPush config parts).status ds =
      written words.status (parts.map fun part => (part.ds, part.status)) ds := by
  induction parts generalizing words with
  | nil => rfl
  | cons part rest ih =>
      refine (ih (words.pushEntry config part)).trans ?_
      exact written_congr (words.pushEntry_status config other part) _

theorem leaderPush_version (other : config.serverOf ds ≠ config.follower)
    (parts : List (PushBodyPart δ)) :
    (words.leaderPush config parts).version ds =
      written words.version (parts.map fun part => (part.ds, part.version)) ds := by
  induction parts generalizing words with
  | nil => rfl
  | cons part rest ih =>
      refine (ih (words.pushEntry config part)).trans ?_
      exact written_congr (words.pushEntry_version config other part) _

end TopologyWords

namespace MasterWords

variable (config : TopologyConfig δ) (words : MasterWords δ)

/-- The masters after the entries. -/
def pushed (entries : List (δ × Bool)) : MasterWords δ :=
  entries.foldl (fun words entry => words.pushMaster config entry.1 entry.2) words

theorem pushed_append (first second : List (δ × Bool)) :
    words.pushed config (first ++ second) = (words.pushed config first).pushed config second :=
  List.foldl_append

variable {config words}

/-- The flag that was pushed is taken over. -/
theorem pushMaster_self (ds : δ) (isMaster : Bool) :
    (words.pushMaster config ds isMaster).isMaster ds = isMaster := by
  unfold pushMaster
  split_ifs with same
  · exact same
  · dsimp only
    split
    · rename_i old found
      split_ifs with own
      · exact Function.update_self _ _ _
      · exact (Function.update_of_ne (Ne.symm own) _ _).trans (Function.update_self _ _ _)
    · exact Function.update_self _ _ _
    · split_ifs
      · exact Function.update_self _ _ _
      · exact Function.update_self _ _ _
    · exact Function.update_self _ _ _

/-- A part that says not master leaves the others alone. -/
theorem pushMaster_false {ds other : δ} (ne : other ≠ ds) :
    (words.pushMaster config ds false).isMaster other = words.isMaster other := by
  unfold pushMaster
  split_ifs with same
  · rfl
  · dsimp only
    split
    · rename_i contra _
      cases contra
    · rename_i contra _
      cases contra
    · split_ifs
      · exact Function.update_of_ne ne _ _
      · exact Function.update_of_ne ne _ _
    · exact Function.update_of_ne ne _ _

/-- A part that says master takes a flag away in its own group only. -/
theorem pushMaster_true (agree : words.Agree config) {ds other : δ} (ne : other ≠ ds) :
    (words.pushMaster config ds true).isMaster other = words.isMaster other ∨
      config.groupOf other = config.groupOf ds := by
  unfold pushMaster
  split_ifs with same
  · exact Or.inl rfl
  · dsimp only
    split
    · rename_i old _ found
      split_ifs with own
      · exact Or.inl (Function.update_of_ne ne _ _)
      · by_cases isOld : other = old
        · subst isOld
          exact Or.inr (agree.member _ _ found)
        · exact Or.inl ((Function.update_of_ne isOld _ _).trans (Function.update_of_ne ne _ _))
    · exact Or.inl (Function.update_of_ne ne _ _)
    · rename_i contra _
      cases contra
    · rename_i contra _
      cases contra

/-- The master of a group is set together with its flag, and the flag of the old one is
cleared. -/
theorem Agree.install (agree : words.Agree config) (ds : δ) (flags : δ → Bool)
    (self : flags ds = true)
    (others : ∀ other, other ≠ ds → flags other =
      if words.master (config.groupOf ds) = some other then false else words.isMaster other) :
    Agree config ⟨flags, Function.update words.master (config.groupOf ds) (some ds)⟩ := by
  constructor
  · intro other
    by_cases own : other = ds
    · subst own
      simp [self]
    · dsimp only
      rw [others other own]
      by_cases group : config.groupOf other = config.groupOf ds
      · rw [group, Function.update_self]
        have notNew : some ds ≠ some other := fun equal => own (Option.some.inj equal).symm
        split_ifs with isOld
        · exact ⟨nofun, fun equal => absurd equal notNew⟩
        · rw [agree.flagged other, group]
          exact ⟨fun equal => absurd equal isOld, fun equal => absurd equal notNew⟩
      · rw [Function.update_of_ne group]
        have notOld : words.master (config.groupOf ds) ≠ some other :=
          fun equal => group (agree.member _ _ equal)
        rw [if_neg notOld]
        exact agree.flagged other
  · intro group other found
    by_cases own : group = config.groupOf ds
    · subst own
      dsimp only at found
      rw [Function.update_self] at found
      rw [Option.some.inj found]
    · dsimp only at found
      rw [Function.update_of_ne own] at found
      exact agree.member group other found

/-- The flag of the master is cleared together with the master. -/
theorem Agree.remove (agree : words.Agree config) (ds : δ)
    (isMaster : words.master (config.groupOf ds) = some ds) :
    Agree config ⟨Function.update words.isMaster ds false,
      Function.update words.master (config.groupOf ds) none⟩ := by
  constructor
  · intro other
    dsimp only
    by_cases own : other = ds
    · subst own
      simp
    · rw [Function.update_of_ne own]
      by_cases group : config.groupOf other = config.groupOf ds
      · rw [group, Function.update_self, agree.flagged other, group, isMaster]
        exact ⟨fun equal => absurd (Option.some.inj equal).symm own, nofun⟩
      · rw [Function.update_of_ne group]
        exact agree.flagged other
  · intro group other found
    by_cases own : group = config.groupOf ds
    · subst own
      dsimp only at found
      rw [Function.update_self] at found
      cases found
    · dsimp only at found
      rw [Function.update_of_ne own] at found
      exact agree.member group other found

/-- Flags and masters still agree. -/
theorem Agree.pushMaster (agree : words.Agree config) (ds : δ) (isMaster : Bool) :
    (words.pushMaster config ds isMaster).Agree config := by
  unfold MasterWords.pushMaster
  split_ifs with same
  · exact agree
  · cases isMaster with
    | true =>
        cases found : words.master (config.groupOf ds) with
        | none =>
            refine agree.install ds _ (Function.update_self _ _ _) fun other ne => ?_
            rw [found, if_neg nofun, Function.update_of_ne ne]
        | some old =>
            have notOld : old ≠ ds := by
              rintro rfl
              exact same ((agree.flagged old).mpr found)
            dsimp only
            rw [if_neg notOld]
            refine agree.install ds _ ?_ fun other ne => ?_
            · exact (Function.update_of_ne notOld.symm _ _).trans (Function.update_self _ _ _)
            · rw [found]
              by_cases isOld : other = old
              · subst isOld
                rw [Function.update_self, if_pos rfl]
              · rw [Function.update_of_ne isOld, Function.update_of_ne ne, if_neg]
                exact fun equal => isOld (Option.some.inj equal).symm
    | false =>
        have isOld := (agree.flagged ds).mp (by simpa using same)
        rw [isOld]
        dsimp only
        rw [if_pos rfl]
        exact agree.remove ds isOld

omit [DecidableEq δ] in
/-- A group has one master. -/
theorem Agree.unique (agree : words.Agree config) {ds other : δ}
    (group : config.groupOf other = config.groupOf ds) (first : words.isMaster ds = true)
    (second : words.isMaster other = true) : other = ds := by
  have isFirst := (agree.flagged ds).mp first
  have isSecond := (agree.flagged other).mp second
  rw [group] at isSecond
  exact Option.some.inj (isSecond.symm.trans isFirst)

omit [DecidableEq δ] in
theorem Agree.master_iff (agree : words.Agree config) (group : Nat) (ds : δ) :
    words.master group = some ds ↔ config.groupOf ds = group ∧ words.isMaster ds = true := by
  constructor
  · intro found
    have same := agree.member group ds found
    refine ⟨same, (agree.flagged ds).mpr ?_⟩
    rw [same]
    exact found
  · rintro ⟨rfl, flag⟩
    exact (agree.flagged ds).mp flag

omit [DecidableEq δ] in
/-- With the same flags, the masters are the same when they agree with the flags. -/
theorem Agree.masters_eq_iff {others : MasterWords δ} (agree : words.Agree config)
    (flags : ∀ ds, words.isMaster ds = others.isMaster ds) :
    (∀ group, words.master group = others.master group) ↔ others.Agree config := by
  constructor
  · intro masters
    constructor
    · intro ds
      rw [← flags ds, ← masters]
      exact agree.flagged ds
    · intro group ds found
      rw [← masters] at found
      exact agree.member group ds found
  · intro other group
    apply Option.ext
    intro ds
    rw [agree.master_iff, other.master_iff, flags]

theorem Agree.pushed (agree : words.Agree config) (entries : List (δ × Bool)) :
    (words.pushed config entries).Agree config := by
  induction entries generalizing words with
  | nil => exact agree
  | cons entry rest ih => exact ih (agree.pushMaster entry.1 entry.2)

end MasterWords

theorem TopologyWords.leaderPush_masters (config : TopologyConfig δ) (words : TopologyWords δ)
    (parts : List (PushBodyPart δ)) :
    (words.leaderPush config parts).masters =
      words.masters.pushed config (parts.map fun part => (part.ds, part.isMaster)) := by
  induction parts generalizing words with
  | nil => rfl
  | cons part rest ih =>
      refine (ih (words.pushEntry config part)).trans ?_
      rw [words.pushEntry_masters]
      rfl

end FastStore.Cluster
