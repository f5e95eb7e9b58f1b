import Mathlib.Data.List.DropRight
import ThroughputCharts.Directory.Basic
import ThroughputCharts.Proofs.Results

/-!
# The places of files

A path leads to the same place whatever stands in the directory, as long as it can be followed.
Writing a file changes what stands at its place and nothing else, and creating a folder adds folders
on the way to it and nothing else.
-/

namespace ThroughputCharts

namespace Directory

/-- The place that a name leads to from a folder. -/
def follow (folder : Place) (name : String) : Place :=
  if name = "." then folder else if name = ".." then up folder else folder ++ [name]

/-- The place that names lead to, from where an absolute or a relative path starts. -/
def placeOfNames (absolute : Bool) (names : List String) : Place :=
  names.foldl follow (if absolute then root else [])

/-- The place that a path leads to. -/
def destination (path : Path) : Place :=
  placeOfNames path.absolute path.names

/-- A place is passed on the way that a path takes, or is where it ends. -/
def OnWayTo (path : Path) (place : Place) : Prop :=
  ∃ names, names <+: path.names ∧ place = placeOfNames path.absolute names

section Following

variable {directory other : Directory} {path : Path}

theorem entry?_eq_folder_iff {place : Place} :
    directory.entry? place = some .folder ↔ isAbove place = true ∨ place ∈ directory.folders := by
  simp only [ entry?, Bool.or_eq_true, List.contains_iff_mem]
  split
  next isFolder => simp [isFolder]
  next notFolder => simp [notFolder]

theorem lookup_of_entry?_eq_none {place : Place} (free : directory.entry? place = none) :
    directory.files.lookup place = none := by
  unfold entry? at free
  split at free
  · contradiction
  · exact Option.map_eq_none_iff.mp free

theorem entry?_eq_file_iff {place : Place} {content : Content} :
    directory.entry? place = some (.file content) ↔
      directory.entry? place ≠ some .folder ∧ directory.files.lookup place = some content := by
  rw [Ne, entry?_eq_folder_iff]
  simp only [ entry?, Bool.or_eq_true, List.contains_iff_mem]
  split
  next isFolder => simp [isFolder]
  next notFolder => simp [notFolder]

/-- A name leads into another folder if it is a dot, two dots or the name of a folder. -/
theorem enter_eq_ok_iff {folder place : Place} {name : String} :
    directory.enter folder name = .ok place ↔
      (name ≠ "." → name ≠ ".." → name.utf8ByteSize ≤ maxNameLength ∧
        directory.entry? (folder ++ [name]) = some .folder) ∧ place = follow folder name := by
  unfold enter follow find
  by_cases isDot : name = "."
  · simp [isDot, eq_comm]
  by_cases isDotDot : name = ".."
  · simp [isDotDot, eq_comm]
  simp only [isDot, isDotDot, if_false, ne_eq, not_false_eq_true, forall_const]
  by_cases tooLong : maxNameLength < name.utf8ByteSize
  · simp [tooLong, Nat.not_le.mpr tooLong]
  · simp only [tooLong, if_false, Nat.not_lt.mp tooLong, true_and]
    cases directory.entry? (folder ++ [name]) with
    | none => simp
    | some entry => cases entry <;> simp [eq_comm]

theorem foldlM_enter_eq_ok {names : List String} {start place : Place}
    (entered : names.foldlM (enter directory) start = .ok place) :
    place = names.foldl follow start := by
  induction names generalizing start with
  | nil => exact (Except.ok.inj entered).symm
  | cons name names induction =>
      rw [List.foldlM_cons, bind_eq_ok_iff] at entered
      obtain ⟨next, first, others⟩ := entered
      rw [List.foldl_cons, ← (enter_eq_ok_iff.mp first).2]
      exact induction others

theorem foldlM_enter_of_folders_subset {names : List String} {start place : Place}
    (kept : directory.folders ⊆ other.folders)
    (entered : names.foldlM (enter directory) start = .ok place) :
    names.foldlM (enter other) start = .ok place := by
  induction names generalizing start with
  | nil => exact entered
  | cons name names induction =>
      rw [List.foldlM_cons, bind_eq_ok_iff] at entered ⊢
      obtain ⟨next, first, others⟩ := entered
      refine ⟨next, ?_, induction others⟩
      rw [enter_eq_ok_iff] at first ⊢
      refine ⟨fun notDot notDotDot => ?_, first.2⟩
      obtain ⟨short, isFolder⟩ := first.1 notDot notDotDot
      rw [ entry?_eq_folder_iff] at isFolder ⊢
      exact ⟨short, isFolder.imp_right (kept ·)⟩

theorem walk_eq_ok_iff {names : List String} {place : Place} :
    directory.walk path names = .ok place ↔
      ('\x00' ∉ path.text.toList ∧ path.isEmpty = false ∧
        path.text.utf8ByteSize ≤ maxPathLength) ∧
      names.foldlM (enter directory) (if path.absolute then root else []) = .ok place := by
  simp only [walk, List.contains_iff_mem]
  by_cases zero : '\x00' ∈ path.text.toList
  · simp [zero]
  by_cases empty : path.isEmpty = true
  · simp [zero, empty]
  by_cases tooLong : maxPathLength < path.text.utf8ByteSize
  · simp [zero, empty, tooLong, Nat.not_le.mpr tooLong]
  · simp [zero, empty, tooLong, Nat.not_lt.mp tooLong]

theorem eq_placeOfNames_of_walk {names : List String} {place : Place}
    (walked : directory.walk path names = .ok place) :
    place = placeOfNames path.absolute names :=
  foldlM_enter_eq_ok (walk_eq_ok_iff.mp walked).2

/-- A path that can be followed can still be followed when there are more folders. -/
theorem walk_of_folders_subset {names : List String} {place : Place}
    (kept : directory.folders ⊆ other.folders) (walked : directory.walk path names = .ok place) :
    other.walk path names = .ok place := by
  rw [walk_eq_ok_iff] at walked ⊢
  exact ⟨walked.1, foldlM_enter_of_folders_subset kept walked.2⟩

/-- The last name of a path is a name in the folder that the names before lead to. -/
theorem locate_eq_member_iff {folder : Place} {name : String} :
    directory.locate path = .ok (.member folder name) ↔
      directory.walk path path.names.dropLast = .ok folder ∧ path.names.getLast? = some name ∧
        name ≠ "." ∧ name ≠ ".." := by
  simp only [locate, map_eq_ok_iff]
  constructor
  · rintro ⟨place, walked, isMember⟩
    split at isMember
    next => contradiction
    next => contradiction
    next => contradiction
    next last notDot notDotDot isLast =>
      obtain ⟨rfl, rfl⟩ := Target.member.inj isMember
      refine ⟨walked, isLast, ?_, ?_⟩
      · rintro rfl
        exact notDot rfl
      · rintro rfl
        exact notDotDot rfl
  · rintro ⟨walked, isLast, notDot, notDotDot⟩
    refine ⟨folder, walked, ?_⟩
    rw [isLast]
    split
    all_goals simp_all

theorem append_eq_destination_of_locate {folder : Place} {name : String}
    (located : directory.locate path = .ok (.member folder name)) :
    folder ++ [name] = destination path := by
  obtain ⟨walked, isLast, notDot, notDotDot⟩ := locate_eq_member_iff.mp located
  have split : path.names = path.names.dropLast ++ [name] :=
    (List.dropLast_append_getLast? name isLast).symm
  rw [destination, split, eq_placeOfNames_of_walk walked]
  simp [placeOfNames, follow, notDot, notDotDot]

/-- A file can stand where a path leads: the path ends in a name, behind folders that exist, and is
no folder itself. -/
def IsFilePath (directory : Directory) (path : Path) : Prop :=
  ∃ folder name, directory.locate path = .ok (.member folder name) ∧
    name.utf8ByteSize ≤ maxNameLength ∧ path.endsInSlash = false ∧
      directory.entry? (destination path) ≠ some .folder

theorem find_eq_ok_iff {folder : Place} {name : String} {entry : Option Entry} :
    directory.find folder name = .ok entry ↔
      name.utf8ByteSize ≤ maxNameLength ∧ entry = directory.entry? (folder ++ [name]) := by
  unfold find
  split
  next tooLong => simp [Nat.not_le.mpr tooLong]
  next short => simp [Nat.not_lt.mp short, eq_comm]

/-- Reading gives the content of a file that stands where the path leads. -/
theorem read_eq_ok_iff {text : String} {content : Content} :
    directory.read text = .ok content ↔
      directory.IsFilePath (Path.ofText text) ∧
        directory.files.lookup (destination (Path.ofText text)) = some content := by
  simp only [read, bind_eq_ok_iff]
  constructor
  · rintro ⟨target, located, targeted⟩
    cases target with
    | folder place => contradiction
    | member folder name =>
        obtain ⟨entry, found, entered⟩ := bind_eq_ok_iff.mp targeted
        obtain ⟨short, rfl⟩ := find_eq_ok_iff.mp found
        rw [append_eq_destination_of_locate located] at entered
        split at entered
        next => contradiction
        next => contradiction
        next stored isFile =>
          split at entered
          next => contradiction
          next noSlash =>
            obtain rfl := Except.ok.inj entered
            obtain ⟨notFolder, isContent⟩ := entry?_eq_file_iff.mp isFile
            exact ⟨⟨folder, name, located, short, by simpa using noSlash, notFolder⟩, isContent⟩
  · rintro ⟨⟨folder, name, located, short, noSlash, notFolder⟩, isContent⟩
    refine ⟨_, located, bind_eq_ok_iff.mpr ⟨_, find_eq_ok_iff.mpr ⟨short, rfl⟩, ?_⟩⟩
    rw [append_eq_destination_of_locate located, entry?_eq_file_iff.mpr ⟨notFolder, isContent⟩]
    simp only [noSlash, Bool.false_eq_true, if_false]
    rfl

/-- Writing sets the content where the path leads. -/
theorem write_eq_ok_iff {text : String} {content : Content} :
    directory.write text content = .ok other ↔
      directory.IsFilePath (Path.ofText text) ∧
        other = directory.put (destination (Path.ofText text)) content := by
  simp only [write, bind_eq_ok_iff]
  constructor
  · rintro ⟨target, located, targeted⟩
    cases target with
    | folder place => contradiction
    | member folder name =>
        dsimp only at targeted
        split at targeted
        next => contradiction
        next noSlash =>
          obtain ⟨entry, found, entered⟩ := bind_eq_ok_iff.mp targeted
          obtain ⟨short, rfl⟩ := find_eq_ok_iff.mp found
          rw [append_eq_destination_of_locate located] at entered
          split at entered
          next => contradiction
          next notFolder =>
            exact ⟨⟨folder, name, located, short, by simpa using noSlash, notFolder⟩,
              (Except.ok.inj entered).symm⟩
  · rintro ⟨⟨folder, name, located, short, noSlash, notFolder⟩, rfl⟩
    refine ⟨_, located, ?_⟩
    simp only [noSlash, Bool.false_eq_true, if_false]
    refine bind_eq_ok_iff.mpr ⟨_, find_eq_ok_iff.mpr ⟨short, rfl⟩, ?_⟩
    rw [append_eq_destination_of_locate located]
    split
    next isFolder => exact absurd isFolder notFolder
    next => rfl

end Following

section Growing

variable {path : Path} {before middle after : Directory}

/-- After a folder was created, or failed to be, there are as many files as before and at most some
more folders on the way to it. -/
structure Grows (path : Path) (before after : Directory) : Prop where
  files : after.files = before.files
  keeps : before.folders ⊆ after.folders
  fresh : ∀ place ∈ after.folders, place ∈ before.folders ∨
    OnWayTo path place ∧ before.files.lookup place = none

theorem Grows.refl (path : Path) (directory : Directory) : Grows path directory directory :=
  ⟨rfl, List.Subset.refl _, fun _ member => .inl member⟩

theorem Grows.trans (first : Grows path before middle) (second : Grows path middle after) :
    Grows path before after where
  files := second.files.trans first.files
  keeps := List.Subset.trans first.keeps second.keeps
  fresh place member := by
    rcases second.fresh place member with kept | ⟨onWay, noFile⟩
    · exact first.fresh place kept
    · exact .inr ⟨onWay, first.files ▸ noFile⟩

theorem dropIdle_isPrefix (parts : List String) : Path.dropIdle parts <+: parts :=
  List.rdropWhile_prefix Path.isIdle parts

theorem settled_isPrefix (path : Path) : path.settled <+: path.parts := by
  unfold Path.settled
  split
  next first rest _ isParts =>
    rw [isParts]
    split
    · exact List.nil_prefix
    · exact List.cons_prefix_cons.mpr ⟨rfl, dropIdle_isPrefix rest⟩
  next => exact dropIdle_isPrefix _

/-- What is on the way to the folder above a path is on the way to the path. -/
theorem OnWayTo.of_parent {parent : Path} {place : Place} (isParent : path.parent? = some parent)
    (onWay : OnWayTo parent place) : OnWayTo path place := by
  unfold Path.parent? at isParent
  split at isParent
  next => contradiction
  next =>
    obtain rfl := Option.some.inj isParent
    obtain ⟨names, shorter, rfl⟩ := onWay
    refine ⟨names, shorter.trans (List.IsPrefix.filter _ ?_), rfl⟩
    exact (settled_isPrefix _).trans ((List.dropLast_prefix _).trans (settled_isPrefix path))

theorem Grows.of_parent {parent : Path} (isParent : path.parent? = some parent)
    (grows : Grows parent before after) : Grows path before after :=
  ⟨grows.files, grows.keeps, fun place member =>
    (grows.fresh place member).imp_right fun fresh => ⟨fresh.1.of_parent isParent, fresh.2⟩⟩

theorem grows_createOne (created : before.createOne path = .ok after) : Grows path before after := by
  obtain ⟨target, located, targeted⟩ := bind_eq_ok_iff.mp created
  cases target with
  | folder place => contradiction
  | member folder name =>
      obtain ⟨entry, found, entered⟩ := bind_eq_ok_iff.mp targeted
      obtain ⟨short, rfl⟩ := find_eq_ok_iff.mp found
      split at entered
      next => contradiction
      next free =>
        obtain rfl := Except.ok.inj entered
        rw [append_eq_destination_of_locate located] at free ⊢
        refine ⟨rfl, List.subset_cons_self _ _, ?_⟩
        intro place member
        rcases List.mem_cons.mp member with rfl | kept
        · refine .inr ⟨⟨path.names, List.prefix_rfl, rfl⟩, ?_⟩
          exact lookup_of_entry?_eq_none free
        · exact .inl kept

theorem grows_ensureOne (directory : Directory) (path : Path) :
    Grows path directory (directory.ensureOne path).1 := by
  unfold ensureOne
  split
  next created => exact grows_createOne created
  next => exact Grows.refl path directory

theorem grows_ensure (directory : Directory) (path : Path) (depth : Nat) :
    Grows path directory (directory.ensure path depth).1 := by
  induction depth generalizing path with
  | zero => exact grows_ensureOne directory path
  | succ depth induction =>
      unfold ensure
      split
      · exact Grows.refl path directory
      split
      next parent _ isParent =>
        have grows := (induction parent).of_parent isParent
        split
        next above made =>
          rw [made] at grows
          exact grows.trans (grows_ensureOne above path)
        next above fault made =>
          rw [made] at grows
          exact grows
      next => exact grows_ensureOne directory path

theorem grows_createAll (directory : Directory) (text : String) :
    Grows (Path.ofText text) directory (directory.createAll text).1 :=
  grows_ensure directory _ _

end Growing

section Reading

variable {before after : Directory} {path : Path} {text : String} {content : Content}

theorem lookup_cons_eq (files : List (Place × Content)) (place other : Place) (content : Content) :
    ((place, content) :: files).lookup other =
      if other = place then some content else files.lookup other := by
  rw [List.lookup_cons]
  by_cases same : other = place
  · rw [if_pos same, beq_iff_eq.mpr same]
  · rw [if_neg same, beq_eq_false_iff_ne.mpr same]

theorem lookup_filter_ne (files : List (Place × Content)) (place other : Place) :
    (files.filter fun file => file.1 != place).lookup other =
      if other = place then none else files.lookup other := by
  induction files with
  | nil => simp
  | cons file files induction =>
      obtain ⟨stands, content⟩ := file
      rw [List.filter_cons, lookup_cons_eq]
      by_cases isPlace : stands = place
      · simp only [isPlace, bne_self_eq_false, Bool.false_eq_true, if_false, induction]
        split <;> rfl
      · simp only [bne_iff_ne, ne_eq, isPlace, not_false_eq_true, if_true, lookup_cons_eq, induction]
        by_cases isOther : other = stands
        · rw [if_pos isOther, if_pos isOther, if_neg (isOther ▸ isPlace)]
        · rw [if_neg isOther, if_neg isOther]

theorem lookup_put (directory : Directory) (place other : Place) (content : Content) :
    (directory.put place content).files.lookup other =
      if other = place then some content else directory.files.lookup other := by
  rw [put, lookup_cons_eq, lookup_filter_ne]
  split <;> rfl

theorem IsFilePath.of_folders_subset (isFilePath : before.IsFilePath path)
    (kept : before.folders ⊆ after.folders)
    (notFresh : destination path ∈ after.folders → destination path ∈ before.folders) :
    after.IsFilePath path := by
  obtain ⟨folder, name, located, short, noSlash, notFolder⟩ := isFilePath
  rw [locate_eq_member_iff] at located
  refine ⟨folder, name, locate_eq_member_iff.mpr ⟨walk_of_folders_subset kept located.1, located.2⟩,
    short, noSlash, ?_⟩
  rw [Ne, entry?_eq_folder_iff] at notFolder ⊢
  exact mt (Or.imp_right notFresh) notFolder

/-- A file that can be read is still there after a folder was created. -/
theorem read_of_grows {folder : Path} (grows : Grows folder before after)
    (isContent : before.read text = .ok content) : after.read text = .ok content := by
  rw [read_eq_ok_iff] at isContent ⊢
  refine ⟨isContent.1.of_folders_subset grows.keeps fun member => ?_, grows.files ▸ isContent.2⟩
  refine (grows.fresh _ member).resolve_right fun fresh => ?_
  rw [fresh.2] at isContent
  exact nomatch isContent.2

/-- A file that can be read holds what is written to its place. -/
theorem read_of_write {other : String} {written : Content}
    (wrote : before.write other written = .ok after) (isContent : before.read text = .ok content) :
    after.read text = .ok (if destination (Path.ofText text) = destination (Path.ofText other)
      then written else content) := by
  obtain ⟨-, rfl⟩ := write_eq_ok_iff.mp wrote
  rw [read_eq_ok_iff] at isContent ⊢
  refine ⟨isContent.1.of_folders_subset (List.Subset.refl _) id, ?_⟩
  rw [lookup_put, isContent.2]
  split <;> rfl

theorem read_written (wrote : before.write text content = .ok after) :
    after.read text = .ok content := by
  obtain ⟨isFilePath, rfl⟩ := write_eq_ok_iff.mp wrote
  refine read_eq_ok_iff.mpr ⟨isFilePath.of_folders_subset (List.Subset.refl _) id, ?_⟩
  rw [lookup_put, if_pos rfl]

end Reading

end Directory

end ThroughputCharts
